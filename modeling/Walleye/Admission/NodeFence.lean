import Walleye.Admission.Maintenance

namespace Walleye.Admission

open Walleye.Base
open Walleye.Bitr

/-- What a persisted fence names its holder by. Two texts of one signature are two holders. -/
structure Signed (ι : Type) where
  owner : ι
  signature : ι
deriving DecidableEq, Repr

structure VerifiedMaintenanceToken (ι : Type) (blank : ι → Bool) where
  marker : Marker (Signed ι)
  owner : blank marker.owner.owner = false
  signature : blank marker.owner.signature = false
  positive : marker.generation ≠ 0

def markerVersion : Nat := 1

structure MarkerCodec (ι γ : Type) where
  encode : Nat × DurableMaintenanceState (Signed ι) → γ
  decode : γ → Except String (Nat × DurableMaintenanceState (Signed ι))
  decode_encode : ∀ x, decode (encode x) = .ok x

structure FencedNode (ι γ : Type) where
  memory : DurableMaintenanceState (Signed ι)
  file : Option γ

inductive FenceStep (ι : Type) (blank : ι → Bool)
  | fence (token : VerifiedMaintenanceToken ι blank) (write : Persisted)
  | release (token : VerifiedMaintenanceToken ι blank) (write : Persisted)
  | observe
  | restart

variable {ι γ : Type} {blank : ι → Bool}

def badFence (blank : ι → Bool) (generation : Nat) (fence : Marker (Signed ι)) : Bool :=
  decide (fence.generation ≠ generation) || blank fence.owner.owner || blank fence.owner.signature

def readMaintenanceState (codec : MarkerCodec ι γ) (blank : ι → Bool) :
    Option γ → Except ReplicaError (DurableMaintenanceState (Signed ι))
  | none => .ok .initial
  | some bytes => match codec.decode bytes with
    | .error error => .error (.nodeStorage ("invalid maintenance marker: " ++ error))
    | .ok (version, state) =>
      if version ≠ markerVersion ∨ state.active.any (badFence blank state.generation) = true ∨
          state.lastReleased.any (badFence blank state.generation) = true then
        .error (.nodeStorage "invalid maintenance marker generation or version")
      else .ok state

/-! ### What a call can do -/

namespace DurableMaintenanceState

structure Valid (blank : ι → Bool) (s : DurableMaintenanceState (Signed ι)) : Prop where
  active : ∀ fence, s.active = some fence → badFence blank s.generation fence = false
  lastReleased : ∀ fence, s.lastReleased = some fence → badFence blank s.generation fence = false

/-- The changes of a state: a new fence, the release of the one that is held, or the release of one
that never came. -/
inductive Moves (s next : DurableMaintenanceState (Signed ι)) (token : Marker (Signed ι)) : Prop
  | fences (idle : s.active = none) (newer : s.generation < token.generation)
      (state : next = ⟨token.generation, some token, none⟩)
  | releases (held : s.active = some token) (state : next = ⟨s.generation, none, some token⟩)
  | records (idle : s.active = none) (newer : s.generation < token.generation)
      (state : next = ⟨token.generation, none, some token⟩)

def Advances (s next : DurableMaintenanceState (Signed ι)) : Prop :=
  s.generation ≤ next.generation ∧
    (next.active = s.active ∨ next.active = none ∨
      ∃ fence, next.active = some fence ∧ s.generation < fence.generation)

/-- The token was passed by: released, or overtaken by another one. -/
def Retired (s : DurableMaintenanceState (Signed ι)) (token : Marker (Signed ι)) : Prop :=
  token.generation ≤ s.generation ∧ s.active ≠ some token

variable {s next : DurableMaintenanceState (Signed ι)} {token : Marker (Signed ι)}

theorem Moves.advances (h : Moves s next token) : Advances s next := by
  cases h with
  | fences idle newer state =>
    subst state
    exact ⟨Nat.le_of_lt newer,.inr (.inr ⟨token,rfl,newer⟩)⟩
  | releases held state =>
    subst state
    exact ⟨Nat.le_refl _,.inr (.inl rfl)⟩
  | records idle newer state =>
    subst state
    exact ⟨Nat.le_of_lt newer,.inr (.inl rfl)⟩

theorem Retired.advance (h : Retired s token) (hn : Advances s next) : Retired next token := by
  obtain ⟨hl,ha⟩ := h
  obtain ⟨hg,hs | hno | ⟨fence,hf,hnew⟩⟩ := hn
  · exact ⟨Nat.le_trans hl hg,hs ▸ ha⟩
  · refine ⟨Nat.le_trans hl hg,?_⟩
    rw [hno]
    exact fun h => Option.some_ne_none _ h.symm
  · refine ⟨Nat.le_trans hl hg,?_⟩
    rw [hf]
    intro he
    cases he
    omega

theorem Advances.of_eq (h : next = s) : Advances s next := by
  subst h
  exact ⟨Nat.le_refl _,.inl rfl⟩

end DurableMaintenanceState

open DurableMaintenanceState

section Reading

variable {codec : MarkerCodec ι γ} {s next : DurableMaintenanceState (Signed ι)}

theorem generation_of_valid {generation : Nat} {fence : Marker (Signed ι)}
    (h : badFence blank generation fence = false) : fence.generation = generation := by
  simp only [badFence,Bool.or_eq_false_iff,decide_eq_false_iff_not,not_not] at h
  exact h.1.1

theorem badFence_token (token : VerifiedMaintenanceToken ι blank) :
    badFence blank token.marker.generation token.marker = false := by
  simp [badFence,token.owner,token.signature]

/-- A fence or a release leaves a state that the next start accepts. -/
theorem Moves.valid (hs : s.Valid blank) {token : VerifiedMaintenanceToken ι blank}
    (h : Moves s next token.marker) : next.Valid blank := by
  have ht := badFence_token token
  cases h with
  | fences idle newer state =>
    subst state
    refine ⟨?_,by simp⟩
    intro fence hf
    cases hf
    exact ht
  | releases held state =>
    subst state
    refine ⟨by simp,?_⟩
    intro fence hf
    cases hf
    exact hs.active _ held
  | records idle newer state =>
    subst state
    refine ⟨by simp,?_⟩
    intro fence hf
    cases hf
    exact ht

theorem readMaintenanceState_valid
    (h : readMaintenanceState codec blank file = .ok s) : s.Valid blank := by
  cases file with
  | none =>
    cases h
    exact ⟨by simp [DurableMaintenanceState.initial],by simp [DurableMaintenanceState.initial]⟩
  | some bytes =>
    simp only [readMaintenanceState] at h
    split at h
    · cases h
    · rename_i version state _
      rw [guard_ok] at h
      obtain ⟨hc,h⟩ := h
      cases h
      simp only [not_or] at hc
      obtain ⟨_,ha,hr⟩ := hc
      constructor
      · intro fence hf
        simpa [hf] using ha
      · intro fence hf
        simpa [hf] using hr

theorem readMaintenanceState_encode (h : s.Valid blank) :
    readMaintenanceState codec blank (some (codec.encode (markerVersion,s))) = .ok s := by
  simp only [readMaintenanceState,codec.decode_encode]
  rw [if_neg]
  simp only [ne_eq,not_true_eq_false,false_or,not_or,Option.any_eq_true,not_exists,not_and]
  constructor
  · intro fence hf
    simp [h.active fence hf]
  · intro fence hf
    simp [h.lastReleased fence hf]

namespace FencedNode

def Stored (codec : MarkerCodec ι γ) (blank : ι → Bool) (s : FencedNode ι γ) : Prop :=
  s.memory.Valid blank ∧ ∃ stored, readMaintenanceState codec blank s.file = .ok stored ∧
    Advances s.memory stored

def Opened (codec : MarkerCodec ι γ) (blank : ι → Bool) (s : FencedNode ι γ) : Prop :=
  readMaintenanceState codec blank s.file = .ok s.memory

theorem Opened.stored {s : FencedNode ι γ} (h : Opened codec blank s) : Stored codec blank s :=
  ⟨readMaintenanceState_valid h,s.memory,h,Advances.of_eq rfl⟩

end FencedNode

end Reading

variable [DecidableEq ι]

theorem DurableMaintenanceState.fence_moves
    {token : Marker (Signed ι)} (h : s.fence token = .ok next) : next = s ∨ Moves s next token := by
  unfold DurableMaintenanceState.fence at h
  split at h
  · split at h <;> cases h
    exact .inl rfl
  · split at h <;> cases h
    exact .inr (.fences ‹_› (by omega) rfl)

theorem DurableMaintenanceState.releaseFence_moves
    {token : Marker (Signed ι)} (h : s.releaseFence token = .ok next) : next.active = none ∧
      (next = s ∧ s.lastReleased = some token ∨ Moves s next token) := by
  unfold DurableMaintenanceState.releaseFence at h
  split at h
  · split at h
    · rename_i active ha he
      cases h
      exact ⟨rfl,.inr (.releases (he ▸ ha) rfl)⟩
    · cases h
  · rename_i hi
    split at h
    · cases h
      exact ⟨hi,.inl ⟨rfl,‹_›⟩⟩
    · split at h <;> cases h
      exact ⟨rfl,.inr (.records hi ‹_› rfl)⟩

def DurableMaintenanceState.verifyFence (s : DurableMaintenanceState (Signed ι))
    (token : VerifiedMaintenanceToken ι blank) : Except ReplicaError Unit :=
  if s.active = some token.marker then .ok () else .error .writerFenced

namespace FencedNode

variable (codec : MarkerCodec ι γ) (blank : ι → Bool)

def persist (s : FencedNode ι γ) (next : DurableMaintenanceState (Signed ι)) :
    Persisted → FencedNode ι γ
  | .done => ⟨next, some (codec.encode (markerVersion, next))⟩
  | .failed true _ => { s with file := some (codec.encode (markerVersion, next)) }
  | .failed false _ => s

def apply (s : FencedNode ι γ)
    (answer : Except ReplicaError (DurableMaintenanceState (Signed ι))) (write : Persisted) :
    FencedNode ι γ :=
  match answer with
  | .error _ => s
  | .ok next => if next = s.memory then s else s.persist codec next write

def step (s : FencedNode ι γ) : FenceStep ι blank → Option (FencedNode ι γ)
  | .fence token write => some (s.apply codec (s.memory.fence token.marker) write)
  | .release token write => some (s.apply codec (s.memory.releaseFence token.marker) write)
  | .observe => some s
  | .restart => (readMaintenanceState codec blank s.file).toOption.map fun state => ⟨state, s.file⟩

end FencedNode

/-! ### Runs of a node -/

namespace FencedNode

variable {codec : MarkerCodec ι γ} {s s' : FencedNode ι γ}

theorem apply_stored (h : Stored codec blank s) {token : VerifiedMaintenanceToken ι blank}
    (hmov : ∀ next, answer = .ok next → next = s.memory ∨ Moves s.memory next token.marker)
    (write : Persisted) :
    Stored codec blank (s.apply codec answer write) ∧
      Advances s.memory (s.apply codec answer write).memory := by
  cases answer with
  | error e => exact ⟨h,Advances.of_eq rfl⟩
  | ok next =>
    simp only [FencedNode.apply]
    split
    · exact ⟨h,Advances.of_eq rfl⟩
    · rename_i hc
      have hm := (hmov next rfl).resolve_left hc
      have hv := Moves.valid h.1 hm
      match write with
      | .done =>
        exact ⟨⟨hv,next,readMaintenanceState_encode hv,Advances.of_eq rfl⟩,
          hm.advances⟩
      | .failed true _ =>
        exact ⟨⟨h.1,next,readMaintenanceState_encode hv,hm.advances⟩,Advances.of_eq rfl⟩
      | .failed false _ => exact ⟨h,Advances.of_eq rfl⟩

theorem step_stored (h : Stored codec blank s) {a : FenceStep ι blank}
    (hs : step codec blank s a = some s') : Stored codec blank s' ∧ Advances s.memory s'.memory := by
  cases a with
  | fence token write =>
    cases hs
    exact apply_stored h (fun next => fence_moves) write
  | release token write =>
    cases hs
    exact apply_stored h (fun next hn => (releaseFence_moves hn).2.imp_left And.left) write
  | observe =>
    cases hs
    exact ⟨h,Advances.of_eq rfl⟩
  | restart =>
    obtain ⟨_,stored,hr,ha⟩ := id h
    simp only [step,hr,Except.toOption,Option.map_some] at hs
    cases hs
    exact ⟨⟨readMaintenanceState_valid hr,stored,hr,Advances.of_eq rfl⟩,ha⟩

def Later (codec : MarkerCodec ι γ) (blank : ι → Bool) (s : FencedNode ι γ) :
    FencedNode ι γ → Prop :=
  Reachable (· = s) (step codec blank) anyStep

def writes : FenceStep ι blank → Prop
  | .fence _ write | .release _ write => write = .done
  | _ => True

theorem later_stored (h : Stored codec blank s) (hl : Later codec blank s s') :
    Stored codec blank s' ∧ ∀ token, Retired s.memory token → Retired s'.memory token := by
  apply hl.invariant
  · rintro _ rfl
    exact ⟨h,fun _ ht => ht⟩
  · rintro t a t' ⟨ht,hr⟩ _ hs
    obtain ⟨ht',ha⟩ := step_stored ht hs
    exact ⟨ht',fun token hto => (hr token hto).advance ha⟩

theorem later_active (h : Stored codec blank s) {token : Marker (Signed ι)}
    (ha : s.memory.active = some token) (hl : Later codec blank s s') :
    s'.memory.active = some token ∨ Retired s'.memory token := by
  have hg : token.generation = s.memory.generation :=
    generation_of_valid (h.1.active token ha)
  have hi : Stored codec blank s' ∧ token.generation ≤ s'.memory.generation := by
    apply hl.invariant
    · rintro _ rfl
      exact ⟨h,Nat.le_of_eq hg⟩
    · rintro t a t' ⟨ht,hle⟩ _ hs
      obtain ⟨ht',had⟩ := step_stored ht hs
      exact ⟨ht',Nat.le_trans hle had.1⟩
  by_cases he : s'.memory.active = some token
  · exact .inl he
  · exact .inr ⟨hi.2,he⟩

theorem released_retired (h : Stored codec blank s)
    {next : DurableMaintenanceState (Signed ι)}
    (hn : s.memory.releaseFence token.marker = .ok next)
    (hs : step codec blank s (.release token .done) = some s') :
    Retired s'.memory token.marker := by
  obtain ⟨hno,hm⟩ := releaseFence_moves hn
  have hme : s'.memory = next := by
    simp only [step,hn] at hs
    cases hs
    simp only [FencedNode.apply,persist]
    split <;> simp_all
  have hg : token.marker.generation ≤ next.generation := by
    obtain ⟨rfl,hr⟩ | hm := hm
    · exact Nat.le_of_eq (generation_of_valid (h.1.lastReleased _ hr))
    · cases hm with
      | fences idle newer state =>
        subst state
        exact Nat.le_refl _
      | releases held state =>
        subst state
        exact Nat.le_of_eq (generation_of_valid (h.1.active _ held))
      | records idle newer state =>
        subst state
        exact Nat.le_refl _
  rw [hme]
  refine ⟨hg,?_⟩
  rw [hno]
  exact fun he => Option.some_ne_none _ he.symm

theorem release_refused {active : Marker (Signed ι)}
    (ha : s.memory.active = some active) (hn : token.marker ≠ active) (write : Persisted) :
    s.memory.releaseFence token.marker = .error .gatewayUnauthorized ∧
      step codec blank s (.release token write) = some s := by
  have hr : s.memory.releaseFence token.marker = .error .gatewayUnauthorized := by
    simp only [DurableMaintenanceState.releaseFence,ha]
    exact if_neg (Ne.symm hn)
  refine ⟨hr,?_⟩
  simp only [step,hr,FencedNode.apply]

theorem apply_written (h : Opened codec blank s) {token : VerifiedMaintenanceToken ι blank}
    (hmov : ∀ next, answer = .ok next → next = s.memory ∨ Moves s.memory next token.marker) :
    Opened codec blank (s.apply codec answer .done) := by
  cases answer with
  | error e => exact h
  | ok next =>
    simp only [FencedNode.apply]
    split
    · exact h
    · rename_i hc
      have hm := (hmov next rfl).resolve_left hc
      exact readMaintenanceState_encode (Moves.valid (readMaintenanceState_valid h) hm)

theorem step_written (h : Opened codec blank s) {a : FenceStep ι blank} (ha : writes a)
    (hs : step codec blank s a = some s') : Opened codec blank s' := by
  cases a with
  | fence token write =>
    cases ha
    cases hs
    exact apply_written h fun next => fence_moves
  | release token write =>
    cases ha
    cases hs
    exact apply_written h fun next hn => (releaseFence_moves hn).2.imp_left And.left
  | observe =>
    cases hs
    exact h
  | restart =>
    have hr : readMaintenanceState codec blank s.file = .ok s.memory := h
    simp only [step,hr,Except.toOption,Option.map_some] at hs
    cases hs
    exact h

structure Exclusive (codec : MarkerCodec ι γ) (blank : ι → Bool) (s : FencedNode ι γ) : Prop where
  unique : ∀ token token' : VerifiedMaintenanceToken ι blank,
    s.memory.verifyFence token = .ok () → s.memory.verifyFence token' = .ok () →
      token.marker = token'.marker
  superseded : ∀ token s', s.memory.active = some token → Later codec blank s s' →
    s'.memory.active = some token ∨ Retired s'.memory token
  released : ∀ (token : VerifiedMaintenanceToken ι blank) next s',
    s.memory.releaseFence token.marker = .ok next →
      step codec blank s (.release token .done) = some s' → Retired s'.memory token.marker
  permanent : ∀ token s', Retired s.memory token → Later codec blank s s' →
    s'.memory.active ≠ some token
  exact : ∀ (token : VerifiedMaintenanceToken ι blank) write active,
    s.memory.active = some active → token.marker ≠ active →
      s.memory.releaseFence token.marker = .error .gatewayUnauthorized ∧
        step codec blank s (.release token write) = some s
  accepted : ∃ stored, readMaintenanceState codec blank s.file = .ok stored

/-- Over every sequence of messages, starts and failed writes, one token at most holds the node,
none that was passed by comes back, only the active one releases, and the file is accepted; when no
write fails it is the state in memory. -/
theorem maintenance_fence_excludes
    (h : Reachable (Opened codec blank) (step codec blank) anyStep s) :
    Exclusive codec blank s ∧
      (Reachable (Opened codec blank) (step codec blank) (fun _ a => writes a) s →
        readMaintenanceState codec blank s.file = .ok s.memory) := by
  have hst : Stored codec blank s := by
    apply h.invariant
    · exact fun _ ho => ho.stored
    · exact fun _ _ _ ht _ hs => (step_stored ht hs).1
  refine ⟨⟨?_,?_,?_,?_,?_,?_⟩,?_⟩
  · intro token token' hto ht'
    simp only [verifyFence] at hto ht'
    split at hto
    · split at ht'
      · rename_i hac ha'
        exact Option.some.inj (hac.symm.trans ha')
      · cases ht'
    · cases hto
  · exact fun token s' hac hl => later_active hst hac hl
  · exact fun token next s' hnex hs => released_retired hst hnex hs
  · exact fun token s' hret hl => ((later_stored hst hl).2 token hret).2
  · exact fun token write active hac hn => release_refused hac hn write
  · obtain ⟨_,stored,hr,_⟩ := hst
    exact ⟨stored,hr⟩
  · intro hw
    apply hw.invariant (P := Opened codec blank)
    · exact fun _ ho => ho
    · exact fun _ _ _ ht ha hs => step_written ht ha hs

/-- Marker files as the values themselves, and a token of the number `owner`. -/
def valueCodec : MarkerCodec Nat (Nat × DurableMaintenanceState (Signed Nat)) :=
  ⟨id, .ok, fun _ => rfl⟩

def numberToken (owner generation : Nat) (ho : (owner == 0) = false) (hg : generation ≠ 0) :
    VerifiedMaintenanceToken Nat (· == 0) :=
  ⟨⟨⟨owner, 1⟩, generation⟩, ho, rfl, hg⟩

/-- One fence is released, the release of the next one fails behind the rename, and the node
starts again. -/
theorem maintenance_fence_excludes_over_a_failed_release :
    ∃ s : FencedNode Nat (Nat × DurableMaintenanceState (Signed Nat)),
      Reachable (Opened valueCodec (· == 0)) (step valueCodec (· == 0)) anyStep s ∧
      s.memory = ⟨5, none, some ⟨⟨7, 1⟩, 5⟩⟩ ∧ Exclusive valueCodec (· == 0) s ∧
      (Reachable (Opened valueCodec (· == 0)) (step valueCodec (· == 0)) (fun _ a => writes a) s →
        readMaintenanceState valueCodec (· == 0) s.file = .ok s.memory) := by
  have hs : Reachable (Opened valueCodec (· == 0)) (step valueCodec (· == 0)) anyStep
      ⟨.initial,none⟩ := .start rfl
  have hr := hs.of_runs
    [.fence (numberToken 7 3 rfl (by decide)) .done,.release (numberToken 7 3 rfl (by decide)) .done,
      .fence (numberToken 7 5 rfl (by decide)) .done,.observe,
      .release (numberToken 7 5 rfl (by decide)) (.failed true "sync failed"),.restart] rfl
  exact ⟨_,hr,by decide,maintenance_fence_excludes hr⟩

end FencedNode

end Walleye.Admission
