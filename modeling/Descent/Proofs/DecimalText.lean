import Mathlib
import Descent.Grammar.Ascii
import Descent.Proofs.Excerpt

namespace Descent

open Grammar.Ascii (bytes)

def IsDigit (e : Int) : Prop := 48 ≤ e ∧ e ≤ 57

instance (e : Int) : Decidable (IsDigit e) := inferInstanceAs (Decidable (_ ∧ _))

theorem IsDigit.ascii {e : Int} (h : IsDigit e) : 0 ≤ e ∧ e < 128 := by
  unfold IsDigit at h
  omega

namespace Decimal

/-- The number that has the digits `run` in base ten, the last of them for the ones. -/
def natural (run : List Int) : Nat := Nat.ofDigits 10 (run.reverse.map fun e => (e - 48).toNat)

/-- The number with the sign `s`, which may be empty, and the digits `run`. -/
def integer (s run : List Int) : Int := if s = [45] then -natural run else natural run

theorem value_eq_natural (run : List Int) : value run = natural run := by
  rw [value, natural, Nat.ofDigits_eq_foldr, List.foldr_map, List.foldr_reverse]
  refine congrFun (congrFun (congrArg List.foldl ?_) 0) run
  funext n e
  rw [add_comm]
  rfl

theorem unsign_of_digits {run : List Int} (h : ∀ e ∈ run, IsDigit e) : unsign run = (false, run) := by
  unfold unsign
  split
  · exact absurd (h 43 List.mem_cons_self) (by decide)
  · exact absurd (h 45 List.mem_cons_self) (by decide)
  · rfl

theorem signedValue_append {s run : List Int} (hs : s = [] ∨ s = [43] ∨ s = [45])
    (h : ∀ e ∈ run, IsDigit e) : signedValue (s ++ run) = integer s run := by
  rcases hs with rfl | rfl | rfl
  · rw [List.nil_append, signedValue, unsign_of_digits h]
    simp [integer, value_eq_natural]
  · simp [signedValue, unsign, integer, value_eq_natural]
  · simp [signedValue, unsign, integer, value_eq_natural]

def shown (codes : List Int) : String := String.ofList (codes.map fun x => Char.ofNat x.toNat)

theorem describeAll_eq_shown {codes : List Int} (h : ∀ e ∈ codes, 0 ≤ e ∧ e < 128) :
    ElementKind.byte.describeAll codes = shown codes := by
  have hshows : ElementKind.byte.ShowsSingly codes := .inr ⟨rfl, h⟩
  rw [← String.toList_inj, hshows.describeAll_eq, shown, String.toList_ofList]

end Decimal

theorem ByteArray.toList_loop (bs : ByteArray) (i : Nat) (read : List UInt8) :
    ByteArray.toList.loop bs i read = read.reverse ++ bs.data.toList.drop i := by
  fun_induction ByteArray.toList.loop bs i read with
  | case1 i read hi ih =>
    have hi' : i < bs.data.toList.length := by simpa using hi
    have hget : bs.get! i = bs.data.toList[i] := by simp [ByteArray.get!, hi]
    rw [ih, List.drop_eq_getElem_cons hi', hget]
    simp
  | case2 i read hi =>
    have hnil : bs.data.toList.drop i = [] := List.drop_eq_nil_of_le (by simpa using hi)
    rw [hnil, List.append_nil]

theorem ByteArray.toList_eq_data (bs : ByteArray) : bs.toList = bs.data.toList := by
  rw [ByteArray.toList, ByteArray.toList_loop]
  rfl

theorem bytes_ofList {cs : List Char} (h : ∀ ch ∈ cs, ch.toNat < 128) :
    bytes (String.ofList cs) = cs.map fun ch => (ch.toNat : Int) := by
  have hencode : cs.flatMap String.utf8EncodeChar = cs.map fun ch => UInt8.ofNat ch.toNat := by
    rw [List.map_eq_flatMap]
    exact List.flatMap_congr fun ch hch => if_pos (Nat.le_of_lt_succ (h ch hch))
  rw [bytes, ElementKind.codesOf, String.toUTF8, String.toByteArray_ofList, List.utf8Encode,
    ByteArray.toList_eq_data, List.data_toByteArray, List.toList_toArray, hencode, List.map_map]
  refine List.map_congr_left fun ch hch => ?_
  rw [Function.comp_apply, UInt8.toNat_ofNat_of_lt' (Nat.lt_trans (h ch hch) (by decide))]

theorem bytes_append (s s' : String) : bytes (s ++ s') = bytes s ++ bytes s' := by
  simp [bytes, ElementKind.codesOf, ByteArray.toList_eq_data]

theorem toNat_of_mem_toDigits {n : Nat} {ch : Char} (h : ch ∈ Nat.toDigits 10 n) :
    48 ≤ ch.toNat ∧ ch.toNat ≤ 57 := by
  have hdigit := Nat.isDigit_of_mem_toDigits (by decide) (Nat.le_refl 10) h
  simpa [Char.isDigit, UInt32.le_iff_toNat_le] using hdigit

theorem bytes_repr (n : Nat) :
    bytes n.repr = (Nat.toDigits 10 n).map fun ch => (ch.toNat : Int) := by
  refine bytes_ofList fun ch hch => ?_
  have hdigit := toNat_of_mem_toDigits hch
  omega

theorem isDigit_of_mem_bytes_repr {n : Nat} {e : Int} (h : e ∈ bytes n.repr) : IsDigit e := by
  rw [bytes_repr] at h
  obtain ⟨ch, hch, rfl⟩ := List.mem_map.mp h
  have hdigit := toNat_of_mem_toDigits hch
  exact ⟨by omega, by omega⟩

open Decimal (natural integer)

theorem natural_bytes_repr (n : Nat) : natural (bytes n.repr) = n := by
  rw [← Decimal.value_eq_natural, bytes_repr, Decimal.value, List.foldl_map]
  have hdigit (ch : Char) : ((ch.toNat : Int) - 48).toNat = ch.toNat - '0'.toNat := by
    have hzero : '0'.toNat = 48 := rfl
    omega
  simp only [hdigit]
  exact Nat.ofDigitChars_ten_toDigits

theorem bytes_repr_ne_nil (n : Nat) : bytes n.repr ≠ [] := by
  rw [bytes_repr]
  simp [Nat.toDigits_ne_nil]

/-- The text of an integer is a sign, for a negative number, and the digits of its absolute value. -/
theorem bytes_toString (n : Int) : ∃ s run, bytes (toString n) = s ++ run ∧ (s = [] ∨ s = [45]) ∧
    run ≠ [] ∧ (∀ e ∈ run, IsDigit e) ∧ integer s run = n := by
  cases n with
  | ofNat n =>
    exact ⟨[], bytes n.repr, rfl, .inl rfl, bytes_repr_ne_nil n, fun _ => isDigit_of_mem_bytes_repr,
      by simp [integer, natural_bytes_repr]⟩
  | negSucc n =>
    refine ⟨[45], bytes (n + 1).repr, ?_, .inr rfl, bytes_repr_ne_nil _,
      fun _ => isDigit_of_mem_bytes_repr, ?_⟩
    · exact (bytes_append "-" _).trans (congrArg (· ++ _) (by decide +kernel))
    · rw [integer, if_pos rfl, natural_bytes_repr]
      rfl

end Descent
