import Mathlib.Algebra.Group.Nat.Defs

namespace Walleye.Base

def leBytes : Nat → Nat → List UInt8
  | 0, _ => []
  | width + 1, n => .ofNat n :: leBytes width (n / 256)

def ofLeBytes : List UInt8 → Nat
  | [] => 0
  | b :: rest => b.toNat + 256 * ofLeBytes rest

def beBytes (width n : Nat) : List UInt8 := (leBytes width n).reverse

@[simp] theorem length_leBytes (width n : Nat) : (leBytes width n).length = width := by
  induction width generalizing n with
  | zero => rfl
  | succ width ih => simp [leBytes,ih]

@[simp] theorem length_beBytes (width n : Nat) : (beBytes width n).length = width := by
  simp [beBytes]

theorem ofLeBytes_lt (bytes : List UInt8) : ofLeBytes bytes < 256 ^ bytes.length := by
  induction bytes with
  | nil => simp [ofLeBytes]
  | cons b rest ih =>
    have hb := b.toNat_lt
    simp only [ofLeBytes,List.length_cons,Nat.pow_succ]
    omega

theorem leBytes_ofLeBytes (bytes : List UInt8) :
    leBytes bytes.length (ofLeBytes bytes) = bytes := by
  induction bytes with
  | nil => rfl
  | cons b rest ih =>
    have hb := b.toNat_lt
    have hl : UInt8.ofNat (b.toNat + 256 * ofLeBytes rest) = b := by
      apply UInt8.toNat.inj
      simp only [UInt8.toNat_ofNat']
      omega
    have hh : (b.toNat + 256 * ofLeBytes rest) / 256 = ofLeBytes rest := by omega
    simp only [List.length_cons,ofLeBytes,leBytes,hl,hh,ih]

theorem ofLeBytes_leBytes (h : n < 256 ^ width) : ofLeBytes (leBytes width n) = n := by
  induction width generalizing n with
  | zero =>
    simp only [Nat.pow_zero,Nat.lt_one_iff] at h
    exact h.symm
  | succ width ih =>
    have hd : n / 256 < 256 ^ width := by
      rw [Nat.pow_succ] at h
      omega
    simp only [leBytes,ofLeBytes,ih hd,UInt8.toNat_ofNat']
    omega

theorem ofLeBytes_eq (h : bytes.length = width) :
    ofLeBytes bytes = n ↔ n < 256 ^ width ∧ bytes = leBytes width n := by
  constructor
  · intro hn
    subst hn h
    exact ⟨ofLeBytes_lt bytes,(leBytes_ofLeBytes bytes).symm⟩
  · intro hn
    obtain ⟨hl,rfl⟩ := hn
    exact ofLeBytes_leBytes hl

theorem beBytes_inj (hm : m < 256 ^ width) (hn : n < 256 ^ width)
    (h : beBytes width m = beBytes width n) : m = n := by
  have hb : leBytes width m = leBytes width n := List.reverse_inj.mp h
  rw [← ofLeBytes_leBytes hm,hb,ofLeBytes_leBytes hn]

end Walleye.Base
