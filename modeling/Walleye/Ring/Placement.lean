import Walleye.Base.Choice
import Walleye.Control.State

namespace Walleye.Ring

open Walleye.Base Walleye.Base.BTreeMap
open Walleye.Bitr (ReplicaError)
open Walleye.Control

/-- A choice among what is listed that ignores the order of the list, moves to an added entry only,
and moves away from a removed entry only. -/
structure MinimalDisruption {τ μ γ : Type} (Valid : τ → Prop) (listed : τ → List μ)
    (choice : τ → γ) (owned : μ → γ) : Prop where
  order : ∀ s t, Valid s → (listed s).Perm (listed t) → choice s = choice t
  added : ∀ s t m, Valid t → (listed t).Perm (m :: listed s) → choice t ≠ choice s →
    choice t = owned m
  removed : ∀ s t m, Valid t → (listed t).Perm (m :: listed s) → choice t ≠ owned m →
    choice s = choice t

theorem MinimalDisruption.of_cases
    {owned : μ → γ}
    (ho : ∀ s t, Valid s → (listed s).Perm (listed t) → choice s = choice t)
    (hc : ∀ s t m, Valid t → (listed t).Perm (m :: listed s) →
      choice t = owned m ∨ choice t = choice s) : MinimalDisruption Valid listed choice owned where
  order := ho
  added s t m hv hp hm := (hc s t m hv hp).resolve_right hm
  removed s t m hv hp how := ((hc s t m hv hp).resolve_left how).symm

structure Node (ι ω : Type) where
  id : ι
  endpoint : String
  weight : ω

variable {ι ω κ S : Type} [LinearOrder S]

section Cohort

/-- The cohort with the greatest score of a stream, and of those the one with the greatest id. Two
that tie in both have one id. -/
def chooseCohort (score : ι → Nat → S) (stream : ι) (cohorts : List (DurableCohort ι)) :
    Option Nat :=
  (cohorts.argmax fun cohort => toLex (score stream cohort.id, cohort.id)).map (·.id)

variable (score : ι → Nat → S) (stream : ι)

theorem chooseCohort_congr (h : (cohorts.map (·.id)).Perm (others.map (·.id))) :
    chooseCohort score stream cohorts = chooseCohort score stream others := by
  apply argmax_map_congr
  · intro v
    have hv := h.map fun id => toLex (score stream id,id)
    rw [List.map_map,List.map_map] at hv
    exact hv.mem_iff
  · intro x _ y _ he
    exact congrArg (fun v => (ofLex v).2) he

theorem chooseCohort_cases {id : Nat} (h : (others.map (·.id)).Perm (id :: cohorts.map (·.id))) :
    chooseCohort score stream others = some id ∨
      chooseCohort score stream others = chooseCohort score stream cohorts := by
  obtain ⟨cohort,-,rfl⟩ := List.mem_map.mp (h.mem_iff.mpr List.mem_cons_self)
  have hc : (others.map (·.id)).Perm ((cohort :: cohorts).map (·.id)) := h
  rw [chooseCohort_congr score stream hc]
  cases argmax_cons_cases (fun c => toLex (score stream c.id,c.id)) cohort cohorts with
  | inl hcoh => exact .inl (congrArg (Option.map _) hcoh)
  | inr hk => exact .inr (congrArg (Option.map _) hk)

end Cohort

variable [LinearOrder ι]

section Owner

def choose (score : Node ι ω → κ → S) (key : κ) (members : List (Node ι ω)) :
    Option (Node ι ω) :=
  members.argmin fun node => toLex (score node key, node.id)

variable {score : Node ι ω → κ → S}

theorem choose_eq_argmax : choose score key members =
    members.argmax fun node => OrderDual.toDual (toLex (score node key,node.id)) :=
  rfl

theorem choose_perm (hids : (members.map (·.id)).Nodup) (h : members.Perm others) :
    choose score key members = choose score key others := by
  have hl : ∀ x ∈ members, ∀ y ∈ others,
      OrderDual.toDual (toLex (score x key,x.id)) = OrderDual.toDual (toLex (score y key,y.id)) →
        id x = id y := by
    intro x hx y hy he
    have hi : x.id = y.id := congrArg (fun v => (ofLex (OrderDual.ofDual v)).2) he
    exact List.inj_on_of_nodup_map hids hx (h.mem_iff.mpr hy) hi
  have hc := argmax_map_congr (fun v => (h.map _).mem_iff) hl
  simpa [choose_eq_argmax] using hc

theorem choose_cases (hi : (others.map (·.id)).Nodup) (h : others.Perm (node :: members)) :
    choose score key others = some node ∨ choose score key others = choose score key members := by
  rw [choose_perm hi h]
  exact argmax_cons_cases (fun n => OrderDual.toDual (toLex (score n key,n.id))) node members

end Owner

def eligibleCohorts (state : DurableControlState ι) (exclude : Option Nat) :
    List (DurableCohort ι) :=
  state.cohorts.valuesOf.filter fun cohort =>
    exclude ≠ some cohort.id ∧ cohort.status = .active ∧
      cohort.members.length = replicationFactor ∧
      ∀ id ∈ cohort.members, state.members[id]?.map (·.status) = some .active

def cohortForStreamExcluding (score : ι → Nat → S) (stream : ι) (state : DurableControlState ι)
    (exclude : Option Nat) : Except ReplicaError Nat :=
  match chooseCohort score stream (eligibleCohorts state exclude) with
  | some id => .ok id
  | none => .error .quorumUnavailable

/-- Owners of keys and cohorts of streams, under any score, move only with the entry that a change
adds or removes. The ring refuses members of one id. -/
theorem placement_moves_minimally (score : Node ι ω → κ → S) (key : κ) (ringScore : ι → Nat → S)
    (stream : ι) :
    MinimalDisruption (fun members => (members.map (·.id)).Nodup) id (choose score key) some ∧
    MinimalDisruption (fun _ => True)
      (fun s : DurableControlState ι × Option Nat => (eligibleCohorts s.1 s.2).map (·.id))
      (fun s => cohortForStreamExcluding ringScore stream s.1 s.2) .ok := by
  constructor
  · apply MinimalDisruption.of_cases
    · exact fun members others hids h => choose_perm hids h
    · exact fun members others node hids h => choose_cases hids h
  · apply MinimalDisruption.of_cases
    · intro s t _ h
      rw [cohortForStreamExcluding,chooseCohort_congr ringScore stream h,cohortForStreamExcluding]
    · intro s t id _ h
      cases chooseCohort_cases ringScore stream h with
      | inl hi =>
        left
        rw [cohortForStreamExcluding,hi]
      | inr hk =>
        right
        rw [cohortForStreamExcluding,hk,cohortForStreamExcluding]

end Walleye.Ring
