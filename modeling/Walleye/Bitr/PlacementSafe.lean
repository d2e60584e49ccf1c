import Mathlib.Data.Multiset.Bind
import Walleye.Base.Updates
import Walleye.Bitr.PlacementStore

namespace Walleye.Bitr

open Walleye.Base

/-- What a gate or a call has of a stream: leases of appends, and the transition of a fence. -/
abbrev Shares : Type := Multiset (PlacementEpoch ⊕ PlacementEpoch)

def Gate.shares (g : Gate) : Shares :=
  .replicate g.admitted (.inl g.placement) + g.next.elim 0 fun requested => {.inr requested}

theorem Gate.mem_shares {g : Gate} :
    (.inl p ∈ g.shares ↔ g.admitted ≠ 0 ∧ p = g.placement) ∧ (.inr p ∈ g.shares ↔ g.next = some p) := by
  obtain ⟨placement,admitted,next⟩ := g
  cases next with
  | none => simp [Gate.shares,Multiset.mem_replicate]
  | some r => simp [Gate.shares,Multiset.mem_replicate,eq_comm]

theorem Gate.shares_admit (g : Gate) :
    ({ g with admitted := g.admitted + 1 } : Gate).shares = g.shares + {.inl g.placement} := by
  simp only [Gate.shares,Multiset.replicate_add,Multiset.replicate_one]
  exact add_right_comm ..

theorem Gate.shares_release {g : Gate} (h : g.admitted ≠ 0) :
    g.release.shares + {.inl g.placement} = g.shares := by
  refine g.release.shares_admit.symm.trans ?_
  obtain ⟨n,hn⟩ := Nat.exists_eq_succ_of_ne_zero h
  simp [Gate.shares,Gate.release,hn]

variable {σ : Type} [DecidableEq σ]

def PlacementCall.shares (stream : σ) : PlacementCall σ → Shares
  | .admission other placement .leased => if other = stream then {.inl placement} else 0
  | .fence other requested .draining => if other = stream then {.inr requested} else 0
  | _ => 0

theorem PlacementCall.shares_of_busy {c : PlacementCall σ} (h : c.busy = false) (stream : σ) :
    c.shares stream = 0 := by
  unfold PlacementCall.busy at h
  unfold PlacementCall.shares
  split at h <;> simp_all

namespace PlacementStore

variable {blank : σ → Bool} {s s' : PlacementStore σ} {i : Nat} {write : Persisted}

structure StreamSound (s : PlacementStore σ) (stream : σ) : Prop where
  given : (s.calls : Multiset (PlacementCall σ)).bind (·.shares stream) =
    (s.gates stream).elim 0 Gate.shares
  rises : ∀ g requested, s.gates stream = some g → g.next = some requested →
    g.placement.epoch < requested.epoch

theorem StreamSound.set {stream : σ} (h : StreamSound s stream) (hc : s.calls[i]? = some c)
    (hs : s'.calls = s.calls.set i c') (hg : (s'.gates stream).elim 0 Gate.shares + c.shares stream =
      (s.gates stream).elim 0 Gate.shares + c'.shares stream)
    (hr : ∀ g requested, s'.gates stream = some g → g.next = some requested →
      g.placement.epoch < requested.epoch) : StreamSound s' stream := by
  refine ⟨?_,hr⟩
  have hb := congrArg (Multiset.bind · (·.shares stream)) (coe_set_add hc c')
  simp only [Multiset.add_bind,Multiset.singleton_bind,h.given] at hb
  rw [hs]
  exact add_right_cancel (hb.trans hg.symm)

theorem StreamSound.lease (h : StreamSound s stream)
    (hm : .admission stream placement .leased ∈ s.calls) :
    ∃ g, s.gates stream = some g ∧ g.admitted ≠ 0 ∧ placement = g.placement := by
  have ht : .inl placement ∈ (s.gates stream).elim 0 Gate.shares := by
    rw [← h.given]
    exact Multiset.mem_bind.mpr ⟨_,hm,by simp [PlacementCall.shares]⟩
  cases hg : s.gates stream with
  | none => simp [hg] at ht
  | some g =>
    rw [hg] at ht
    exact ⟨g,rfl,Gate.mem_shares.1.mp ht⟩

theorem StreamSound.fence (h : StreamSound s stream)
    (hm : .fence stream requested .draining ∈ s.calls) :
    ∃ g, s.gates stream = some g ∧ g.next = some requested := by
  have ht : .inr requested ∈ (s.gates stream).elim 0 Gate.shares := by
    rw [← h.given]
    exact Multiset.mem_bind.mpr ⟨_,hm,by simp [PlacementCall.shares]⟩
  cases hg : s.gates stream with
  | none => simp [hg] at ht
  | some g =>
    rw [hg] at ht
    exact ⟨g,rfl,Gate.mem_shares.2.mp ht⟩

/-- A step with a call on one stream: its gate takes or gives what the call gets or gives up. -/
theorem StreamSound.touch {stream : σ} (h : ∀ x, StreamSound s x) (hc : s.calls[i]? = some c)
    (hb : ∀ x, x ≠ stream → c.shares x = 0) (ha : ∀ x, x ≠ stream → c'.shares x = 0)
    (hs : s'.calls = s.calls.set i c')
    (hu : s'.gates = Function.update s.gates stream (some g'))
    (hg : g'.shares + c.shares stream = (s.gates stream).elim 0 Gate.shares + c'.shares stream)
    (hr : ∀ requested, g'.next = some requested → g'.placement.epoch < requested.epoch) (x : σ) :
    StreamSound s' x := by
  by_cases hx : x = stream
  · subst hx
    refine (h x).set hc hs ?_ ?_
    · rw [hu,Function.update_self]
      exact hg
    · intro g requested hg'
      rw [hu,Function.update_self] at hg'
      cases hg'
      exact hr requested
  · have hsa : s'.gates x = s.gates x := by rw [hu,Function.update_of_ne hx]
    refine (h x).set hc hs ?_ ?_
    · rw [hsa,hb x hx,ha x hx]
    · rw [hsa]
      exact (h x).rises

theorem shares_admission {stream : σ} {placement : PlacementEpoch} {point : AdmitPoint} :
    ∀ x, x ≠ stream → (PlacementCall.admission stream placement point).shares x = 0 := by
  intro x hx
  cases point <;> simp [PlacementCall.shares,hx.symm]

theorem shares_fence {stream : σ} {requested : PlacementEpoch} {point : FencePoint} :
    ∀ x, x ≠ stream → (PlacementCall.fence stream requested point).shares x = 0 := by
  intro x hx
  cases point <;> simp [PlacementCall.shares,hx.symm]

/-- Every effect of a call keeps every stream sound. -/
theorem StreamSound.effect {c : PlacementCall σ} (h : ∀ stream, StreamSound s stream)
    (hc : s.calls[i]? = some c) (he : Effect s i write c s') : ∀ x, StreamSound s' x := by
  have hm := List.mem_of_getElem? hc
  cases he with
  | moves c' before after checked state =>
    subst state
    intro x
    refine (h x).set hc rfl ?_ (h x).rises
    rw [PlacementCall.shares_of_busy before,PlacementCall.shares_of_busy after]
    rfl
  | opens stream c' before after checked free state =>
    subst state
    refine StreamSound.touch h hc (fun x _ => PlacementCall.shares_of_busy before x)
      (fun x _ => PlacementCall.shares_of_busy after x) rfl rfl ?_ nofun
    rw [free,PlacementCall.shares_of_busy before,PlacementCall.shares_of_busy after]
    rfl
  | admits stream g before gate state =>
    subst state before
    refine StreamSound.touch h hc shares_admission shares_admission rfl rfl ?_
      fun r => (h stream).rises g r gate
    simp [gate,PlacementCall.shares,Gate.shares_admit]
  | releases stream placement g before gate state =>
    subst state before
    obtain ⟨g',hg',hn,rfl⟩ := (h stream).lease hm
    cases gate.symm.trans hg'
    refine StreamSound.touch h hc shares_admission shares_admission rfl rfl ?_
      fun r => (h stream).rises g r gate
    simpa [gate,PlacementCall.shares] using Gate.shares_release hn
  | marks stream requested g before gate free rises state =>
    subst state
    refine StreamSound.touch h hc (fun x _ => PlacementCall.shares_of_busy before x)
      shares_fence rfl rfl ?_ fun r hr => Option.some.inj hr ▸ rises
    rw [PlacementCall.shares_of_busy before]
    simp [gate,Gate.shares,PlacementCall.shares,free]
  | publishes stream requested g before gate drained healthy state =>
    subst state before
    obtain ⟨g',hg',hn⟩ := (h stream).fence hm
    cases gate.symm.trans hg'
    refine StreamSound.touch h hc shares_fence shares_fence rfl rfl ?_ nofun
    simp [gate,Gate.shares,PlacementCall.shares,hn,drained]
  | stops stream requested g error failedClosed sidecar before gate closed state =>
    subst state before
    obtain ⟨g',hg',hn⟩ := (h stream).fence hm
    cases gate.symm.trans hg'
    refine StreamSound.touch h hc shares_fence shares_fence rfl rfl ?_ nofun
    simp [gate,Gate.shares,PlacementCall.shares,hn]

/-! ### The file and the memory -/

/-- While the store is healthy the file, the map and the gates agree. -/
def Agrees (s : PlacementStore σ) : Prop :=
  s.failedClosed = false → s.sidecar = s.persisted ∧
    ∀ stream, s.placementOf stream = (s.persisted stream).getD .bootstrap

inductive Outcome (s : PlacementStore σ) (write : Persisted) (c : PlacementCall σ)
    (s' : PlacementStore σ) : Prop
  | keeps (failedClosed : s'.failedClosed = s.failedClosed) (sidecar : s'.sidecar = s.sidecar)
      (persisted : s'.persisted = s.persisted)
      (placement : ∀ x, s'.placementOf x = s.placementOf x)
  | publishes (stream : σ) (requested : PlacementEpoch)
      (healthy : s.failedClosed = false ∧ s'.failedClosed = false)
      (rises : (s.placementOf stream).epoch < requested.epoch)
      (persisted : s'.persisted = Function.update s.persisted stream (some requested))
      (sidecar : s'.sidecar = s'.persisted)
      (placement : s'.placementOf = Function.update s.placementOf stream requested)
  | fails (stream : σ) (requested : PlacementEpoch)
      (before : c = .fence stream requested .draining)
      (closed : s.failedClosed = false ∧ s'.failedClosed = true)
      (failed : ∃ renamed why, write = .failed renamed why)
      (rises : (s.placementOf stream).epoch < requested.epoch)
      (sidecar : s'.sidecar = s.sidecar ∨
        s'.sidecar = Function.update s.persisted stream (some requested))
      (placement : ∀ x, s'.placementOf x = s.placementOf x)
      (calls : ∀ u ∈ s'.calls, u.admitting = true → u ∈ s.calls)

theorem placementOf_setGate (h : s.placementOf stream = g.placement)
    (hg : s'.gates = Function.update s.gates stream (some g))
    (hp : s'.persisted = s.persisted) (x : σ) : s'.placementOf x = s.placementOf x := by
  by_cases he : x = stream
  · subst he
    rw [h]
    exact placementOf_gate (by rw [hg,Function.update_self])
  · simp only [placementOf,hg,hp,Function.update_of_ne he]

theorem StreamSound.rises_of_draining (h : StreamSound s stream)
    (hc : s.calls[i]? = some (.fence stream requested .draining)) :
    (s.placementOf stream).epoch < requested.epoch := by
  obtain ⟨g,hg,hn⟩ := h.fence (List.mem_of_getElem? hc)
  rw [placementOf_gate hg]
  exact h.rises g requested hg hn

/-- An effect keeps the placements, publishes a higher one, or fails the store closed. -/
theorem Effect.outcome (hs : ∀ stream, StreamSound s stream)
    (ha : Agrees s) (hc : s.calls[i]? = some c) (he : Effect s i write c s') :
    Outcome s write c s' := by
  cases he with
  | moves c' before after checked state =>
    subst state
    exact .keeps rfl rfl rfl fun _ => rfl
  | opens stream c' before after checked free state =>
    subst state
    refine .keeps rfl rfl rfl (placementOf_setGate ?_ rfl rfl)
    simp only [placementOf,free]
  | admits stream g before gate state =>
    have hg := placementOf_gate gate
    subst state
    exact .keeps rfl rfl rfl (placementOf_setGate (g := { g with admitted := g.admitted + 1 }) hg rfl rfl)
  | releases stream placement g before gate state =>
    have hg := placementOf_gate gate
    subst state
    exact .keeps rfl rfl rfl (placementOf_setGate (g := g.release) hg rfl rfl)
  | marks stream requested g before gate free rises state =>
    have hg := placementOf_gate gate
    subst state
    exact .keeps rfl rfl rfl (placementOf_setGate (g := { g with next := some requested }) hg rfl rfl)
  | publishes stream requested g before gate drained healthy state =>
    have hr := (hs stream).rises_of_draining (before ▸ hc)
    subst state
    refine .publishes stream requested ⟨healthy,healthy⟩ hr rfl rfl ?_
    funext x
    by_cases heq : x = stream
    · subst heq
      simp only [placementOf,goto,setGate,Function.update_self]
    · rw [Function.update_of_ne heq]
      simp only [placementOf,goto,setGate,Function.update_of_ne heq]
  | stops stream requested g error failedClosed sidecar before gate closed state =>
    have hr := (hs stream).rises_of_draining (before ▸ hc)
    have hg := placementOf_gate gate
    have hp : ∀ x, s'.placementOf x = s.placementOf x := by
      subst state
      exact placementOf_setGate (g := { g with next := none }) hg rfl rfl
    obtain ⟨hcl,rfl,rfl⟩ | ⟨hh,rfl,⟨hd,_⟩ | ⟨renamed,why,hw,hf⟩⟩ :=
      closed
    · subst state
      exact .keeps hcl.symm rfl rfl hp
    · obtain ⟨q,hq,hn⟩ := (Option.any_eq_true _ _).mp hd
      have hg := (ha hh).2 stream
      rw [placementOf_gate gate,hq] at hg
      simp [hg] at hn
    · subst state
      refine .fails stream requested before ⟨hh,rfl⟩ ⟨renamed,why,hw⟩ hr hf
        hp ?_
      intro u hu had
      obtain hu | rfl := List.mem_or_eq_of_mem_set hu
      · exact hu
      · cases had

/-- Gate and sidecar still agree. -/
theorem Outcome.agrees (h : Outcome s write c s') (ha : Agrees s) : Agrees s' := by
  intro hh
  cases h with
  | keeps failedClosed sidecar persisted placement =>
    rw [failedClosed] at hh
    obtain ⟨hf,hg⟩ := ha hh
    refine ⟨by rw [sidecar,persisted,hf],?_⟩
    intro stream
    rw [placement,persisted,hg]
  | publishes stream requested healthy rises persisted sidecar placement =>
    refine ⟨sidecar,?_⟩
    intro x
    rw [placement,persisted]
    by_cases he : x = stream
    · subst he
      simp
    · rw [Function.update_of_ne he,Function.update_of_ne he,(ha healthy.1).2]
  | fails stream requested before closed failed rises sidecar placement calls =>
    rw [closed.2] at hh
    cases hh

/-- No placement moves back, in memory or on disk. -/
theorem Outcome.epochs (h : Outcome s write c s') (ha : Agrees s)
    (x : σ) : (s.placementOf x).epoch ≤ (s'.placementOf x).epoch ∧
      ((s.sidecar x).getD .bootstrap).epoch ≤ ((s'.sidecar x).getD .bootstrap).epoch := by
  have hf (hh : s.failedClosed = false) (stream : σ) :
      (s.sidecar stream).getD .bootstrap = s.placementOf stream := by
    obtain ⟨hf,hg⟩ := ha hh
    rw [hf,hg]
  have hu (hh : s.failedClosed = false) {stream : σ} {requested : PlacementEpoch}
      (hr : (s.placementOf stream).epoch < requested.epoch) :
      ((s.sidecar x).getD .bootstrap).epoch ≤
        ((Function.update s.persisted stream (some requested) x).getD .bootstrap).epoch := by
    by_cases he : x = stream
    · subst he
      rw [Function.update_self,hf hh]
      exact Nat.le_of_lt hr
    · exact Nat.le_of_eq (by rw [Function.update_of_ne he,(ha hh).1])
  cases h with
  | keeps failedClosed sidecar persisted placement =>
    rw [placement,sidecar]
    exact ⟨Nat.le_refl _,Nat.le_refl _⟩
  | publishes stream requested healthy rises persisted sidecar placement =>
    rw [sidecar,persisted]
    refine ⟨?_,hu healthy.1 rises⟩
    rw [placement]
    by_cases he : x = stream
    · subst he
      rw [Function.update_self]
      exact Nat.le_of_lt rises
    · exact Nat.le_of_eq (by rw [Function.update_of_ne he])
  | fails stream requested before closed failed rises sidecar placement calls =>
    rw [placement]
    refine ⟨Nat.le_refl _,?_⟩
    obtain hs | hn := sidecar
    · exact Nat.le_of_eq (by rw [hs])
    · rw [hn]
      exact hu closed.1 rises

/-! ### Runs of a store -/

/-- No call stands between its health check and its gate when a write of the sidecar fails. -/
def failsQuietly (s : PlacementStore σ) : StoreStep σ → Bool
  | .resume i (.failed _ _) => match s.calls[i]? with
    | some (.fence _ _ .draining) => s.calls.all (!·.admitting)
    | _ => true
  | _ => true

/-- What a store keeps: its streams are sound, its memory is the file, and once it is closed no
call is on its way to a gate. -/
structure Sound (s : PlacementStore σ) : Prop where
  streams : ∀ stream, StreamSound s stream
  agrees : Agrees s
  closed : s.failedClosed = true → ∀ c ∈ s.calls, c.admitting = false

theorem StreamSound.call (h : StreamSound s stream)
    (hc : starts c = true) : StreamSound { s with calls := s.calls ++ [c] } stream := by
  refine ⟨?_,h.rises⟩
  rw [← h.given,← Multiset.coe_add,Multiset.add_bind,Multiset.coe_singleton,
    Multiset.singleton_bind,PlacementCall.shares_of_busy (starts_idle hc).1,add_zero]

/-- The call that an effect leaves has passed its health check before or now, and its lease was
asked for. -/
theorem Effect.moved (he : Effect s i write c s') :
    ∃ c', s'.calls = s.calls.set i c' ∧
      (c'.admitting = true → c.admitting = true ∨ s.failedClosed = false) ∧
      ∀ stream placement, c' = .admission stream placement .leased → c.admitting = true := by
  cases he with
  | moves c' before after checked state =>
    refine ⟨c',congrArg calls state,checked,?_⟩
    rintro stream placement rfl
    cases after
  | opens stream c' before after checked free state =>
    refine ⟨c',congrArg calls state,fun h => .inl (checked h),?_⟩
    rintro stream placement rfl
    cases after
  | admits stream g before gate state =>
    subst before
    exact ⟨_,congrArg calls state,fun _ => .inl rfl,fun _ _ _ => rfl⟩
  | releases stream placement g before gate state => exact ⟨_,congrArg calls state,nofun,nofun⟩
  | marks stream requested g before gate free rises state =>
    exact ⟨_,congrArg calls state,nofun,nofun⟩
  | publishes stream requested g before gate drained healthy state =>
    exact ⟨_,congrArg calls state,nofun,nofun⟩
  | stops stream requested g error failedClosed sidecar before gate closed state =>
    exact ⟨_,congrArg calls state,nofun,nofun⟩

theorem Effect.admitting (hc : s.calls[i]? = some c)
    (he : Effect s i write c s') (hu : u ∈ s'.calls) (ha : u.admitting = true) :
    s.failedClosed = false ∨ ∃ v ∈ s.calls, v.admitting = true := by
  obtain ⟨c',hs,hh,-⟩ := he.moved
  rw [hs] at hu
  obtain hu | rfl := List.mem_or_eq_of_mem_set hu
  · exact .inr ⟨u,hu,ha⟩
  · exact (hh ha).symm.imp_right fun hb => ⟨c,List.mem_of_getElem? hc,hb⟩

/-- A resumed call keeps the store sound. -/
theorem Sound.resume (h : Sound s) (hq : s.failsQuietly (.resume i write) = true)
    (hs : step blank s (.resume i write) = some s') : Sound s' := by
  obtain ⟨c,hc,he⟩ := resume_effect hs
  have ho := he.outcome h.streams h.agrees hc
  refine ⟨StreamSound.effect h.streams hc he,ho.agrees h.agrees,?_⟩
  intro hcl u hu
  by_contra hadm
  rw [Bool.not_eq_false] at hadm
  cases ho with
  | keeps failedClosed sidecar persisted placement =>
    have hb := failedClosed.symm.trans hcl
    obtain hh | ⟨v,hv,ha⟩ := he.admitting hc hu hadm
    · rw [hb] at hh
      cases hh
    · rw [h.closed hb v hv] at ha
      cases ha
  | publishes stream requested healthy rises persisted sidecar placement =>
    rw [healthy.2] at hcl
    cases hcl
  | fails stream requested before closed failed rises sidecar placement calls =>
    obtain ⟨renamed,why,rfl⟩ := failed
    subst before
    simp only [failsQuietly,hc,List.all_eq_true,Bool.not_eq_true'] at hq
    have hi := hq u (calls u hu hadm)
    rw [hadm] at hi
    cases hi

structure Safe (blank : σ → Bool) (s : PlacementStore σ) : Prop where
  epochs : ∀ a s', step blank s a = some s' → ∀ stream,
    (s.placementOf stream).epoch ≤ (s'.placementOf stream).epoch ∧
      ((s.sidecar stream).getD .bootstrap).epoch ≤ ((s'.sidecar stream).getD .bootstrap).epoch
  leases : ∀ stream placement, .admission stream placement .leased ∈ s.calls →
    s.placementOf stream = placement
  persisted : s.failedClosed = false → s.sidecar = s.persisted ∧
    ∀ stream, s.placementOf stream = (s.sidecar stream).getD .bootstrap
  closed : s.failedClosed = true → ∀ a s', step blank s a = some s' →
    ∀ (j : Nat) stream placement, s'.calls[j]? = some (.admission stream placement .leased) →
      s.calls[j]? = some (.admission stream placement .leased)

theorem Effect.leased (hc : s.calls[i]? = some c) (he : Effect s i write c s') {j : Nat}
    (hj : s'.calls[j]? = some (.admission stream placement .leased)) :
    s.calls[j]? = some (.admission stream placement .leased) ∨
      ∃ u ∈ s.calls, u.admitting = true := by
  obtain ⟨c',hs,-,hl⟩ := he.moved
  rw [hs,List.getElem?_set] at hj
  split at hj
  · split at hj
    · exact .inr ⟨c,List.mem_of_getElem? hc,hl _ _ (Option.some.inj hj)⟩
    · cases hj
  · exact .inl hj

theorem Sound.step (h : Sound s) (hq : s.failsQuietly a = true)
    (hs : step blank s a = some s') : Sound s' := by
  cases a with
  | call c =>
    simp only [PlacementStore.step] at hs
    split at hs
    · rename_i hc
      cases hs
      refine ⟨fun stream => (h.streams stream).call hc,h.agrees,?_⟩
      intro hcl u hu
      obtain hu | he := List.mem_append.mp hu
      · exact h.closed hcl u hu
      · rw [List.mem_singleton] at he
        subst he
        exact (starts_idle hc).2
    · cases hs
  | resume i write => exact h.resume hq hs

theorem Sound.fromPersisted (persisted : σ → Option PlacementEpoch) :
    Sound (fromPersisted persisted) :=
  ⟨fun _ => ⟨rfl,nofun⟩,fun _ => ⟨rfl,fun _ => rfl⟩,nofun⟩

/-- A sound store is safe. -/
theorem Sound.safe (h : Sound s) : Safe blank s := by
  refine ⟨?_,?_,?_,?_⟩
  · intro a s' hs stream
    cases a with
    | call c =>
      simp only [PlacementStore.step] at hs
      split at hs <;> cases hs
      exact ⟨Nat.le_refl _,Nat.le_refl _⟩
    | resume i write =>
      obtain ⟨c,hc,he⟩ := resume_effect hs
      exact (he.outcome h.streams h.agrees hc).epochs h.agrees stream
  · intro stream placement hm
    obtain ⟨g,hg,-,hp⟩ := (h.streams stream).lease hm
    rw [placementOf_gate hg,hp]
  · intro hh
    obtain ⟨hf,hga⟩ := h.agrees hh
    exact ⟨hf,hf ▸ hga⟩
  · intro hcl a s' hs j stream placement hj
    cases a with
    | call c =>
      simp only [PlacementStore.step] at hs
      split at hs <;> cases hs
      rename_i hc
      have hi := (starts_idle hc).1
      rw [List.getElem?_append] at hj
      split at hj
      · exact hj
      · have heq := List.mem_singleton.mp (List.mem_of_getElem? hj)
        subst heq
        cases hi
    | resume i write =>
      obtain ⟨c,hc,he⟩ := resume_effect hs
      obtain ho | ⟨u,hu,ha⟩ := he.leased hc hj
      · exact ho
      · rw [h.closed hcl u hu] at ha
        cases ha

/-- In every run in which no call stands between its health check and its gate when a sidecar write
fails, placements and leases do not go back, the memory is the file while the store is healthy, and
a closed store admits nothing. -/
theorem placement_is_fenced
    (h : Reachable (fun s => ∃ persisted, s = fromPersisted persisted) (step blank)
      (fun s a => s.failsQuietly a = true) s) : Safe blank s := by
  have hso : Sound s := by
    apply h.invariant
    · rintro _ ⟨persisted,rfl⟩
      exact Sound.fromPersisted persisted
    · intro t a t' ht hq hs
      exact ht.step hq hs
  exact hso.safe

/-- A lease is granted, a fence waits for it and is published, and the next one fails. -/
theorem placement_is_fenced_over_a_failed_write : ∃ s : PlacementStore Nat,
    Reachable (fun s => ∃ persisted, s = fromPersisted persisted) (step fun _ => false)
      (fun s a => s.failsQuietly a = true) s ∧
    s.failedClosed = true ∧ s.placementOf 0 = ⟨1, "a"⟩ ∧ Safe (fun _ => false) s := by
  exact Reachable.exists_of_runs ⟨fun _ => none,rfl⟩
    [.call (.admission 0 .bootstrap .calling),.resume 0 .done,.resume 0 .done,.resume 0 .done,
      .call (.fence 0 ⟨1,"a"⟩ .calling),.resume 1 .done,.resume 1 .done,.resume 1 .done,
      .resume 0 .done,.resume 1 .done,.call (.fence 0 ⟨2,"b"⟩ .calling),.resume 2 .done,
      .resume 2 .done,.resume 2 .done,.resume 2 (.failed true "sync failed")] rfl
    fun hr => ⟨by decide,by decide,placement_is_fenced hr⟩

/-- An admission passes its health check, a fence fails to write the sidecar and closes the store,
and the admission is granted. -/
theorem admission_overtaken_by_a_failed_write : ¬ ∀ s : PlacementStore Nat,
    Reachable (fun s => ∃ persisted, s = fromPersisted persisted) (step fun _ => false) anyStep s →
      Safe (fun _ => false) s := by
  intro ha
  have hr := ha _ (.of_start ⟨fun _ => none,rfl⟩
    [.call (.admission 0 .bootstrap .calling),.resume 0 .done,.resume 0 .done,
      .call (.fence 0 ⟨1,"a"⟩ .calling),.resume 1 .done,.resume 1 .done,.resume 1 .done,
      .resume 1 (.failed false "disk full")] rfl)
  have hl := hr.closed rfl (.resume 0 .done) _ rfl 0 0 .bootstrap rfl
  cases hl

end PlacementStore

end Walleye.Bitr
