import Mathlib.Data.List.Basic

namespace Walleye.Base

variable {α ε : Type}

section Split

variable [DecidableEq α]

/-- A text cut at every separator. The last piece is what follows the last separator. -/
def splitAtSep (sep : α) : List α → List (List α)
  | [] => [[]]
  | b :: rest =>
    if b = sep then [] :: splitAtSep sep rest
    else match splitAtSep sep rest with
      | [] => [[b]]
      | line :: lines => (b :: line) :: lines

theorem splitAtSep_of_not_mem {xs : List α} (h : sep ∉ xs) : splitAtSep sep xs = [xs] := by
  induction xs with
  | nil => rfl
  | cons b rest ih =>
    simp only [List.mem_cons,not_or] at h
    simp [splitAtSep,Ne.symm h.1,ih h.2]

theorem splitAtSep_line (h : sep ∉ xs) (rest : List α) :
    splitAtSep sep (xs ++ sep :: rest) = xs :: splitAtSep sep rest := by
  induction xs with
  | nil => simp [splitAtSep]
  | cons b bs ih =>
    simp only [List.mem_cons,not_or] at h
    simp [splitAtSep,Ne.symm h.1,ih h.2]

end Split

section Frames

variable (encode : ε → List α) (sep : α)

/-- The text of a log: every entry's encoding and a separator after it. -/
def frames (entries : List ε) : List α := entries.flatMap fun e => encode e ++ [sep]

@[simp] theorem frames_nil : frames encode sep [] = [] := rfl

@[simp]
theorem frames_cons (e : ε) (entries : List ε) :
    frames encode sep (e :: entries) = encode e ++ sep :: frames encode sep entries := by
  simp [frames]

@[simp]
theorem frames_append (xs ys : List ε) :
    frames encode sep (xs ++ ys) = frames encode sep xs ++ frames encode sep ys := by
  simp [frames]

theorem getLast?_frames (entries : List ε) (hn : frames encode sep entries ≠ []) :
    (frames encode sep entries).getLast? = some sep := by
  induction entries with
  | nil => exact absurd rfl hn
  | cons e rest ih =>
    cases rest with
    | nil => simp
    | cons e' rest =>
      have hr : frames encode sep (e' :: rest) ≠ [] := by simp
      rw [← List.singleton_append,frames_append,List.getLast?_append_of_ne_nil _ hr]
      exact ih hr

theorem splitAtSep_frames [DecidableEq α] (hs : ∀ e, sep ∉ encode e) (entries : List ε)
    {tail : List α} (ht : sep ∉ tail) :
    splitAtSep sep (frames encode sep entries ++ tail) = entries.map encode ++ [tail] := by
  induction entries with
  | nil => simp [splitAtSep_of_not_mem ht]
  | cons e rest ih => simp [splitAtSep_line (hs e),ih]

/-- The entries whose whole encoding is among the first `k` bytes of the log. -/
def completeWithin : List ε → Nat → List ε
  | [], _ => []
  | e :: rest, k =>
    if (encode e).length ≤ k then e :: completeWithin rest (k - (encode e).length - 1) else []

def Torn (tail : List α) : Prop := ∃ e, tail <+: encode e ∧ tail ≠ [] ∧ tail ≠ encode e

/-- A file of whole entries with their separators, with a part of one more entry behind them, or
without the last separator. -/
inductive HoldsEntries : List ε → List α → Prop
  | whole (entries : List ε) : HoldsEntries entries (frames encode sep entries)
  | part (entries : List ε) {tail : List α} :
      Torn encode tail → HoldsEntries entries (frames encode sep entries ++ tail)
  | unclosed (entries : List ε) (last : ε) :
      HoldsEntries (entries ++ [last]) (frames encode sep entries ++ encode last)

variable {encode sep}

theorem HoldsEntries.after (h : HoldsEntries encode sep entries bytes) (before : List ε) :
    HoldsEntries encode sep (before ++ entries) (frames encode sep before ++ bytes) := by
  cases h with
  | whole =>
    rw [← frames_append]
    exact .whole _
  | part _ ht =>
    rw [← List.append_assoc,← frames_append]
    exact .part _ ht
  | unclosed init last =>
    rw [← List.append_assoc,← List.append_assoc,← frames_append]
    exact .unclosed _ last

/-- A file cut anywhere holds its complete lines. -/
theorem holdsEntries_take (hn : ∀ e, encode e ≠ []) (entries : List ε) (k : Nat) :
    HoldsEntries encode sep (completeWithin encode entries k)
      ((frames encode sep entries).take k) := by
  induction entries generalizing k with
  | nil =>
    rw [frames_nil,List.take_nil]
    exact .whole []
  | cons e rest ih =>
    rcases Nat.lt_trichotomy k (encode e).length with hk | hk | hk
    · have ht : (frames encode sep (e :: rest)).take k = (encode e).take k := by
        rw [frames_cons,List.take_append_of_le_length (Nat.le_of_lt hk)]
      rw [ht,completeWithin,if_neg (Nat.not_le_of_lt hk)]
      by_cases h0 : k = 0
      · subst h0
        exact .whole []
      · apply HoldsEntries.part []
        refine ⟨e,List.take_prefix _ _,?_,?_⟩
        · intro hni
          rcases List.take_eq_nil_iff.mp hni with h | h
          · exact h0 h
          · exact hn e h
        · intro he
          have hl := congrArg List.length he
          rw [List.length_take] at hl
          omega
    · subst hk
      have hno : completeWithin encode rest ((encode e).length - (encode e).length - 1) = [] := by
        cases rest with
        | nil => rfl
        | cons x xs =>
          have hp : 0 < (encode x).length := List.length_pos_iff.mpr (hn x)
          rw [completeWithin,if_neg (by omega)]
      have ht : (frames encode sep (e :: rest)).take (encode e).length = encode e := by
        simp
      rw [ht,completeWithin,if_pos (Nat.le_refl _),hno]
      exact .unclosed [] e
    · obtain ⟨j,rfl⟩ : ∃ j, k = (encode e).length + (j + 1) :=
        ⟨k - (encode e).length - 1,by omega⟩
      have hj : (encode e).length + (j + 1) - (encode e).length - 1 = j := by omega
      have ht : (frames encode sep (e :: rest)).take ((encode e).length + (j + 1)) =
          frames encode sep [e] ++ (frames encode sep rest).take j := by
        simp [List.take_length_add_append]
      rw [ht,completeWithin,if_pos (Nat.le_of_lt hk),hj]
      exact (ih j).after [e]

theorem completeWithin_prefix (entries : List ε) (k : Nat) :
    completeWithin encode entries k <+: entries := by
  induction entries generalizing k with
  | nil => exact List.prefix_rfl
  | cons e rest ih =>
    simp only [completeWithin]
    split
    · exact (List.prefix_cons_inj e).mpr (ih _)
    · exact List.nil_prefix

end Frames

/-- How a line reads: as an entry, as text that is not complete or not well formed, or as
well-formed text that is no entry. -/
inductive ParsedLine (ε : Type)
  | entry (e : ε)
  | syntaxError (eof : Bool) (error : String)
  | refused (error : String)

/-- A text format whose entries are objects in braces: no line break, a part is an unexpected end of
input, and an object behind one is not. -/
structure LineCodec (ε : Type) where
  encode : ε → List UInt8
  parse : List UInt8 → ParsedLine ε
  brace : ∀ e, ∃ rest, encode e = 123 :: rest
  newline : ∀ e, 10 ∉ encode e
  carriage : ∀ e, 13 ∉ encode e
  whole : ∀ e, parse (encode e) = .entry e
  torn : ∀ tail, Torn encode tail → ∃ error, parse tail = .syntaxError true error
  trailing : ∀ e rest, ∃ error, parse (encode e ++ 123 :: rest) = .syntaxError false error

theorem LineCodec.encode_ne_nil (codec : LineCodec ε) (e : ε) : codec.encode e ≠ [] := by
  obtain ⟨rest,h⟩ := codec.brace e
  simp [h]

/-! ### A format that meets the laws -/

section Fields

/-- Numbers in unary, each closed by a comma, and a closing brace. -/
def fieldText : List Nat → List UInt8
  | [] => [125]
  | n :: rest => List.replicate n 120 ++ 44 :: fieldText rest

theorem not_mem_fieldText (h1 : b ≠ 120) (h2 : b ≠ 44) (h3 : b ≠ 125) (xs : List Nat) :
    b ∉ fieldText xs := by
  induction xs with
  | nil => simpa [fieldText] using h3
  | cons n rest ih => simp [fieldText,h1,h2,ih]

def readFields (ofFields : List Nat → Option ε) : Nat → List Nat → List UInt8 → ParsedLine ε
  | _, _, [] => .syntaxError true "unexpected end of input"
  | n, fields, b :: rest =>
    if b = 120 then readFields ofFields (n + 1) fields rest
    else if b = 44 then readFields ofFields 0 (fields ++ [n]) rest
    else if b = 125 ∧ rest = [] then
      (ofFields fields).elim (.refused "unknown entry") .entry
    else .syntaxError false "trailing characters"

def readObject (ofFields : List Nat → Option ε) : List UInt8 → ParsedLine ε
  | [] => .syntaxError true "unexpected end of input"
  | b :: rest =>
    if b = 123 then readFields ofFields 0 [] rest else .syntaxError false "expected an object"

theorem readFields_replicate (ofFields : List Nat → Option ε) (k n : Nat) (fields : List Nat)
    (rest : List UInt8) : readFields ofFields n fields (List.replicate k 120 ++ rest) =
      readFields ofFields (n + k) fields rest := by
  induction k generalizing n with
  | zero => rfl
  | succ k ih =>
    simp only [List.replicate_succ,List.cons_append,readFields,if_true]
    rw [ih]
    congr 1
    omega

theorem readFields_text (ofFields : List Nat → Option ε) (xs fields : List Nat) :
    readFields ofFields 0 fields (fieldText xs) =
      (ofFields (fields ++ xs)).elim (.refused "unknown entry") .entry := by
  induction xs generalizing fields with
  | nil => simp [fieldText,readFields]
  | cons n rest ih =>
    simp [fieldText,readFields_replicate,readFields,ih]

theorem readFields_trailing (ofFields : List Nat → Option ε) (xs fields : List Nat)
    (b : UInt8) (rest : List UInt8) :
    readFields ofFields 0 fields (fieldText xs ++ b :: rest) =
      .syntaxError false "trailing characters" := by
  induction xs generalizing fields with
  | nil => simp [fieldText,readFields]
  | cons n tail ih =>
    simp [fieldText,readFields_replicate,readFields,ih]

theorem readFields_torn (ofFields : List Nat → Option ε) (xs fields : List Nat) (n : Nat)
    (hp : tail <+: fieldText xs) (hn : tail ≠ fieldText xs) :
    ∃ error, readFields ofFields n fields tail = .syntaxError true error := by
  induction xs generalizing fields n tail with
  | nil =>
    rcases List.prefix_cons_iff.mp hp with rfl | ⟨t,rfl,ht⟩
    · exact ⟨_,rfl⟩
    · rw [List.prefix_nil] at ht
      subst ht
      exact absurd rfl hn
  | cons k rest ih =>
    simp only [fieldText] at hp hn
    rcases List.prefix_or_prefix_of_prefix hp (List.prefix_append (List.replicate k 120) _) with h | h
    · obtain ⟨_,he⟩ := List.prefix_replicate_iff.mp h
      have hr := readFields_replicate ofFields tail.length n fields []
      rw [List.append_nil,← he] at hr
      exact ⟨_,hr⟩
    · obtain ⟨t,rfl⟩ := h
      rw [List.prefix_append_right_inj] at hp
      rw [readFields_replicate]
      rcases List.prefix_cons_iff.mp hp with rfl | ⟨u,rfl,hu⟩
      · exact ⟨_,rfl⟩
      · have hr : readFields ofFields (n + k) fields (44 :: u) =
            readFields ofFields 0 (fields ++ [n + k]) u := by simp [readFields]
        rw [hr]
        apply ih _ _ hu
        intro he
        exact hn (by rw [he])

def fieldCodec (fields : ε → List Nat) (ofFields : List Nat → Option ε)
    (hread : ∀ e, ofFields (fields e) = some e) : LineCodec ε where
  encode e := 123 :: fieldText (fields e)
  parse := readObject ofFields
  brace e := ⟨_, rfl⟩
  newline e := by
    simp [not_mem_fieldText]
  carriage e := by
    simp [not_mem_fieldText]
  whole e := by
    simp [readObject, readFields_text, hread]
  torn tail ht := by
    obtain ⟨e, hp, hnil, hne⟩ := ht
    rcases List.prefix_cons_iff.mp hp with rfl | ⟨t, rfl, ht⟩
    · exact absurd rfl hnil
    · simp only [readObject, if_true]
      apply readFields_torn ofFields _ [] 0 ht
      intro heq
      exact hne (by rw [heq])
  trailing e rest := ⟨"trailing characters", by simp [readObject, readFields_trailing]⟩

end Fields

end Walleye.Base
