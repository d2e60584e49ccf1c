import Walleye.Base.Tiling
import Walleye.Control.Steps

namespace Walleye.Control

open Walleye.Base Walleye.Base.BTreeMap

variable {ι : Type} [LinearOrder ι] {naming : ControlNaming ι}

def lsnRange : Ranged (StreamSegment ι) := ⟨(·.startLsn), (·.endLsn)⟩

instance (x y : StreamSegment ι) : Decidable (lsnRange.Adjacent x y) :=
  inferInstanceAs (Decidable (∀ e ∈ x.endLsn, y.startLsn = e + 1))

def RoutesTile (state : DurableControlState ι) : Prop :=
  ∀ (stream : ι) (segments : List (StreamSegment ι)),
    state.streamSegments[stream]? = some segments → ∃ n, lsnRange.Tiles n segments

def RoutesOnce (naming : ControlNaming ι) (state : DurableControlState ι) : Prop :=
  ∀ (stream : ι) (segments : List (StreamSegment ι)),
    state.streamSegments[stream]? = some segments →
    ∃ first ∈ segments.head?, (∀ segment ∈ segments.dropLast, segment.endLsn ≠ none) ∧
      ∀ lsn, first.startLsn ≤ lsn →
        ∃ (i : Nat) (segment : StreamSegment ι), segments[i]? = some segment ∧
          manifestRoute (manifestFromState naming state) stream lsn = some segment ∧
          ∀ (j : Nat) (other : StreamSegment ι),
            segments[j]? = some other → lsnRange.Covers other lsn → j = i

theorem RoutesTile.once (h : RoutesTile state) : RoutesOnce naming state := by
  intro stream segments hs
  obtain ⟨n,ht⟩ := h stream segments hs
  cases segments with
  | nil => cases ht
  | cons first rest =>
    refine ⟨first,rfl,ht.sealed,?_⟩
    intro lsn hl
    have hn : n ≤ lsn := by
      have : first.startLsn = n := ht.1
      omega
    obtain ⟨i,segment,hi,hf,ho⟩ := ht.covered hn
    refine ⟨i,segment,hi,?_,ho⟩
    have hr : (manifestFromState naming state).streamSegments[stream]? =
        some (first :: rest) := hs
    rw [manifestRoute,hr]
    exact hf

section Ranges

def FollowsOn (kept : Nat) (segments : List (StreamSegment ι)) : Prop :=
  (∃ last ∈ segments.getLast?, last.endLsn = none) ∧
    (segments.drop (kept - 1)).IsChain lsnRange.Adjacent

instance (kept : Nat) (segments : List (StreamSegment ι)) : Decidable (FollowsOn kept segments) :=
  inferInstanceAs (Decidable (_ ∧ _))

/-- Valid adjacent ranges with an open end tile the stream. -/
theorem tiles_of_adjacent
    (hv : validateSegmentsFrom naming state revision first previousEnd segments = .ok ())
    (ho : ∃ last ∈ segments.getLast?, last.endLsn = none)
    (hc : segments.IsChain lsnRange.Adjacent) : ∃ n, lsnRange.Tiles n segments := by
  induction segments generalizing first previousEnd with
  | nil => simp at ho
  | cons x rest ih =>
    simp only [validateSegmentsFrom,guard_ok,not_or,Except.bind_eq_ok] at hv
    obtain ⟨⟨-,hen,-,-,hl,-⟩,-,-,hr⟩ := hv
    refine ⟨x.startLsn,rfl,?_⟩
    cases hx : lsnRange.last x with
    | none =>
      by_contra hne
      exact hl ⟨hx,hne⟩
    | some e =>
      have hle : x.startLsn ≤ e := by
        by_contra hlt
        exact hen ⟨e,hx,by omega⟩
      cases rest with
      | nil =>
        have hs : x.endLsn = some e := hx
        simp [hs] at ho
      | cons y rest =>
        have hl' : ∃ last ∈ (y :: rest).getLast?, last.endLsn = none := by
          rw [List.getLast?_cons_cons] at ho
          exact ho
        obtain ⟨n,ht⟩ := ih hr hl' hc.tail
        have hn : y.startLsn = n := ht.1
        have hnex : y.startLsn = e + 1 := hc.rel e hx
        have he : n = e + 1 := by omega
        subst he
        exact ⟨hle,ht⟩

/-- Ranges that follow on from a tiling are adjacent. -/
theorem adjacent_of_followsOn (ho : lsnRange.Tiles n old)
    (hkeep : validateStreamTransition naming old (some new) = .ok ())
    (hf : (new.drop (old.length - 1)).IsChain lsnRange.Adjacent) :
    new.IsChain lsnRange.Adjacent := by
  rw [List.isChain_iff_getElem]
  intro i hi
  by_cases hk : i + 1 < old.length
  · obtain ⟨e,he,hn⟩ := ho.adjacent (List.getElem?_eq_getElem (by omega : i < old.length))
      (List.getElem?_eq_getElem hk)
    have hkee : ∀ (j : Nat) (hj : j < old.length) (hj' : j < new.length),
        Keeps naming old[j] new[j] := by
      intro j hj hj'
      cases validateStreamTransition_keeps hkeep (List.getElem?_eq_getElem hj) with
      | inl h =>
        obtain ⟨b,hb,hkee⟩ := h
        rw [Option.getD_some,List.getElem?_eq_getElem hj'] at hb
        cases hb
        exact hkee
      | inr h =>
        have := h.2
        simp only [Option.getD_some] at this
        omega
    have hen : new[i].endLsn = some e := (hkee i (by omega) (by omega)).2 e he
    have hs := (hkee (i + 1) hk hi).1.1
    intro e' he'
    have : e' = e := by
      rw [show lsnRange.last new[i] = some e from hen] at he'
      exact (Option.mem_some_iff.mp he').symm
    subst this
    exact hs.symm.trans hn
  · have hd := List.isChain_iff_getElem.mp hf (i - (old.length - 1))
      (by rw [List.length_drop]; omega)
    simp only [List.getElem_drop] at hd
    have hi' : old.length - 1 + (i - (old.length - 1)) = i := by omega
    have hj' : old.length - 1 + (i - (old.length - 1) + 1) = i + 1 := by omega
    simpa only [hi',hj'] using hd

end Ranges

section Runs

def manifestStep (naming : ControlNaming ι) (state : DurableControlState ι)
    (request : ManifestCasRequest ι) : Option (DurableControlState ι) :=
  ((casManifestWithCutover naming state request).map (·.2)).toOption

/-- How many ranges a stream keeps: a repair puts other ranges in the place of all. -/
def keptRanges (state : DurableControlState ι) (request : ManifestCasRequest ι) (stream : ι) :
    Nat :=
  if request.repair then 0 else (state.streamSegments[stream]?.getD []).length

def ContinuesRoutes (state : DurableControlState ι) (request : ManifestCasRequest ι) : Prop :=
  state.manifestOperations[request.operationId]? = none →
    ∀ entry ∈ request.streamSegments.toList, FollowsOn (keptRanges state request entry.1) entry.2

instance (state : DurableControlState ι) : DecidablePred (ContinuesRoutes state) :=
  fun _ => inferInstanceAs (Decidable (_ → _))

theorem manifestStep_cases (h : manifestStep naming state request = some next) :
    ∃ answer, ManifestCas naming state request answer next := by
  obtain ⟨⟨answer,s⟩,hc,rfl⟩ := Except.map_eq_ok.mp (Except.toOption_eq_some.mp h)
  exact ⟨answer,casManifest_cases hc⟩

/-- A CAS that continues the routes keeps every stream tiled. -/
theorem manifestStep_tiles (htil : RoutesTile state) (hc : ContinuesRoutes state request)
    (h : manifestStep naming state request = some next) : RoutesTile next := by
  obtain ⟨answer,hca⟩ := manifestStep_cases h
  have hins : ∀ revision, Installs naming state request revision answer next →
      (∀ (stream : ι) (segments : List (StreamSegment ι)),
        request.streamSegments[stream]? = some segments →
        (∃ last ∈ segments.getLast?, last.endLsn = none) →
        (segments.drop (keptRanges state request stream - 1)).IsChain lsnRange.Adjacent →
        segments.IsChain lsnRange.Adjacent) →
      RoutesTile next := by
    intro revision hi ha stream segments hs
    rw [hi.streamSegments_eq] at hs
    have he := hc hi.unrecorded (stream,segments)
      (Std.ExtTreeMap.mem_toList_iff_getElem?_eq_some.mpr hs)
    exact tiles_of_adjacent (validateManifestSegments_stream hi.segments hs).2 he.1
      (ha stream segments hs he.1 he.2)
  cases hca with
  | replayed _ => exact htil
  | held _ _ _ _ _ => exact htil
  | repaired hr _ _ _ hi =>
    apply hins _ hi
    intro stream segments _ _ hch
    simpa [keptRanges,hr] using hch
  | advanced hr _ _ _ ht _ hi =>
    apply hins _ hi
    intro stream segments hs _ hch
    simp only [keptRanges,hr,Bool.false_eq_true,if_false] at hch
    cases ho : state.streamSegments[stream]? with
    | none => simpa [ho] using hch
    | some old =>
      obtain ⟨n,hti⟩ := htil stream old ho
      have hk := validateManifestTransition_stream ht ho
      rw [hs] at hk
      rw [ho,Option.getD_some] at hch
      exact adjacent_of_followsOn hti hk hch

/-- As long as accepted requests leave no gap behind the ranges a stream keeps, and end in an open
range, every LSN is routed to exactly one range. -/
theorem accepted_routes_tile {state : DurableControlState ι}
    (h : Reachable RoutesTile (manifestStep naming) ContinuesRoutes state) :
    RoutesOnce naming state :=
  (h.invariant (fun _ hi => hi) fun _ _ _ ht ho hs =>
    manifestStep_tiles ht ho hs).once

theorem threeMembers_tile : RoutesTile threeMembers := by
  intro stream segments h
  rw [show threeMembers.streamSegments = ∅ from rfl] at h
  simp at h

/-- A stream is cut over at LSN 5 to a range that follows. -/
theorem cutover_routes_tile :
    ∃ state, Reachable RoutesTile (manifestStep numbered) ContinuesRoutes state ∧
      state.manifestRevision = 2 ∧ RoutesOnce numbered state := by
  exact Reachable.exists_of_runs threeMembers_tile
    [routeRequest 0 [rangeOfThree 1 none] none,
     routeRequest 1 [rangeOfThree 1 (some 5),rangeOfThree 6 none] (some 5)] rfl
    fun hr => ⟨rfl,accepted_routes_tile hr⟩

/-- A stream is cut over at LSN 5 to a range from LSN 10: no range owns LSN 7. -/
theorem cutover_leaves_gap :
    ¬∀ state, Reachable RoutesTile (manifestStep numbered) anyStep state →
      RoutesOnce numbered state := by
  intro ha
  have hr := ha _ (.of_start threeMembers_tile
    [routeRequest 0 [rangeOfThree 1 none] none,
     routeRequest 1 [rangeOfThree 1 (some 5),rangeOfThree 10 none] (some 5)] rfl)
  obtain ⟨first,hf,-,hrou⟩ :=
    hr 5 [rangeOfThree 1 (some 5),rangeOfThree 10 none] rfl
  cases hf
  obtain ⟨i,segment,-,hro,-⟩ := hrou 7 (by decide)
  cases hro

end Runs

end Walleye.Control
