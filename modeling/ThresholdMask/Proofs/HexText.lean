import Mathlib
import ThresholdMask.Party
import ThresholdMask.Proofs.Outcomes

/-!
# What hexadecimal text is

Hexadecimal text is read byte by byte from its UTF-8 form, and the length that has to be even is
that of the bytes. Seen by characters, the texts that are read are the digits in pairs
(`Hex.IsText`, `Hex.exists_decode_iff`): a character beyond ASCII begins with a byte that is no
digit, and every other one is a single byte.

The case of a digit does not matter. A text is read as the byte string whose hexadecimal form it is
in lower case (`Hex.decode_eq_ok_iff`), so that texts are read as the same byte string exactly if
they differ in case only.
-/

namespace ThresholdMask
namespace Hex

/-- A hexadecimal digit, of either case. -/
def IsDigit (c : Char) : Prop :=
  '0' ≤ c ∧ c ≤ '9' ∨ 'a' ≤ c ∧ c ≤ 'f' ∨ 'A' ≤ c ∧ c ≤ 'F'

instance (c : Char) : Decidable (IsDigit c) :=
  inferInstanceAs (Decidable ('0' ≤ c ∧ c ≤ '9' ∨ 'a' ≤ c ∧ c ≤ 'f' ∨ 'A' ≤ c ∧ c ≤ 'F'))

/-- Digits in pairs. -/
def IsText (text : String) : Prop := text.length % 2 = 0 ∧ ∀ c ∈ text.toList, IsDigit c

-- decided on the characters of the text, not by going through all there are
instance (text : String) : Decidable (IsText text) :=
  have : Decidable (∀ c ∈ text.toList, IsDigit c) := List.decidableBAll _ _
  instDecidableAnd

/-! ## Halves of bytes -/

/-- The halves of bytes, of each byte the high one first. -/
def halves (b : Bytes) : List Nat := b.flatMap fun x => [x.toNat / 16, x.toNat % 16]

@[simp] theorem halves_cons (x : UInt8) (b : Bytes) :
    halves (x :: b) = x.toNat / 16 :: x.toNat % 16 :: halves b := rfl

theorem length_halves (b : Bytes) : (halves b).length = 2 * b.length := by
  induction b with
  | nil => rfl
  | cons x rest ih =>
    simp only [halves_cons, List.length_cons, ih]
    omega

theorem lt_of_mem_halves {b : Bytes} {n : Nat} (member : n ∈ halves b) : n < 16 := by
  obtain ⟨x, -, half⟩ := List.mem_flatMap.mp member
  have := x.toNat_lt
  rcases List.mem_pair.mp half with rfl | rfl <;> omega

theorem digits_eq (b : Bytes) : digits b = (halves b).map digit := by
  rw [digits, halves, List.map_flatMap]
  rfl

/-- Two halves make a byte. -/
theorem toNat_ofNat_halves {high low : Nat} (h : high < 16) (l : low < 16) :
    (UInt8.ofNat (16 * high + low)).toNat = 16 * high + low := by
  rw [UInt8.toNat_ofNat']
  omega

/-- Halves in pairs make bytes. -/
theorem exists_halves {ns : List Nat} (even : ns.length % 2 = 0) (small : ∀ n ∈ ns, n < 16) :
    ∃ b, halves b = ns := by
  induction ns using List.twoStepInduction with
  | nil => exact ⟨[], rfl⟩
  | singleton n => cases even
  | cons_cons high low rest ih _ =>
    rw [List.forall_mem_cons, List.forall_mem_cons] at small
    obtain ⟨h, l, others⟩ := small
    have shorter : rest.length % 2 = 0 := by
      simp only [List.length_cons] at even
      omega
    obtain ⟨b, rfl⟩ := ih shorter others
    refine ⟨UInt8.ofNat (16 * high + low) :: b, ?_⟩
    rw [halves_cons, toNat_ofNat_halves h l]
    congr 2 <;> omega

/-! ## Reading bytes -/

theorem lt_of_digitValue? {b : UInt8} {n : Nat} (value : digitValue? b = some n) : n < 16 := by
  unfold digitValue? at value
  dsimp only at value
  split at value
  · have := Option.some.inj value
    omega
  · split at value
    · have := Option.some.inj value
      omega
    · split at value
      · have := Option.some.inj value
        omega
      · cases value

theorem readDigit_eq_ok {b : UInt8} {position n : Nat} :
    readDigit b position = .ok n ↔ digitValue? b = some n := by
  unfold readDigit
  cases digitValue? b with
  | none => exact ⟨nofun, nofun⟩
  | some k => simp

/-- Bytes are read as those whose halves they write. -/
theorem decodePairs_eq_ok_iff {position : Nat} {text : List UInt8} {b : Bytes} :
    decodePairs position text = .ok b ↔
      List.Forall₂ (fun byte n => digitValue? byte = some n) text (halves b) := by
  induction position, text using decodePairs.induct generalizing b with
  | case1 position =>
    rw [decodePairs, List.forall₂_nil_left_iff, ← List.length_eq_zero_iff, length_halves,
      Except.ok.injEq, eq_comm, ← List.length_eq_zero_iff]
    omega
  | case2 position byte =>
    refine iff_of_false (fun read => ?_) fun pairs => ?_
    · cases read
    · have := pairs.length_eq
      rw [length_halves, List.length_singleton] at this
      omega
  | case3 position high low rest ih =>
    rw [decodePairs]
    simp only [bind_eq_ok, pure_eq_ok, readDigit_eq_ok, ih]
    cases b with
    | nil =>
      refine iff_of_false ?_ fun pairs => ?_
      · rintro ⟨_, -, _, -, bytes, -, whole⟩
        cases whole
      · cases pairs
    | cons x b =>
      have := x.toNat_lt
      rw [halves_cons, List.forall₂_cons, List.forall₂_cons]
      constructor
      · rintro ⟨h, upper, l, lower, bytes, others, whole⟩
        obtain ⟨rfl, rfl⟩ := List.cons.inj whole
        have hs := lt_of_digitValue? upper
        have ls := lt_of_digitValue? lower
        rw [toNat_ofNat_halves hs ls]
        refine ⟨?_, ?_, others⟩
        · rw [upper]
          congr 1
          omega
        · rw [lower]
          congr 1
          omega
      · rintro ⟨upper, lower, others⟩
        refine ⟨_, upper, _, lower, b, others, ?_⟩
        rw [Nat.div_add_mod, UInt8.ofNat_toNat]

/-! ## Reading characters -/

/-- A character of ASCII is one byte. -/
theorem utf8EncodeChar_of_lt {c : Char} (ascii : c.toNat < 128) :
    String.utf8EncodeChar c = [UInt8.ofNat c.toNat] :=
  if_pos (Nat.le_of_lt_succ ascii)

/-- Any other character begins with a byte that is no digit. -/
theorem utf8EncodeChar_of_ge {c : Char} (wide : 128 ≤ c.toNat) :
    ∃ byte more, String.utf8EncodeChar c = byte :: more ∧ digitValue? byte = none := by
  have beyond {n : Nat} (lower : 192 ≤ n) (upper : n < 256) :
      digitValue? (UInt8.ofNat n) = none := by
    have value : (UInt8.ofNat n).toNat = n := by
      rw [UInt8.toNat_ofNat', Nat.mod_eq_of_lt upper]
    unfold digitValue?
    rw [value]
    dsimp only
    rw [if_neg (by omega), if_neg (by omega), if_neg (by omega)]
  have value : c.val.toNat = c.toNat := rfl
  unfold String.utf8EncodeChar
  dsimp only
  rw [if_neg (by omega)]
  split
  · exact ⟨_, _, rfl, beyond (by omega) (by omega)⟩
  · split
    · exact ⟨_, _, rfl, beyond (by omega) (by omega)⟩
    · exact ⟨_, _, rfl, beyond (by omega) (by omega)⟩

/-- The number that a character of ASCII writes is the one whose digit it is in lower case. -/
theorem digitValue?_eq_some_iff {c : Char} (ascii : c.toNat < 128) {n : Nat} (small : n < 16) :
    digitValue? (UInt8.ofNat c.toNat) = some n ↔ c.toLower = digit n := by
  have table : ∀ k : Fin 128, ∀ n : Fin 16,
      digitValue? (UInt8.ofNat k) = some n.val ↔ (Char.ofNat k).toLower = digit n := by
    decide +kernel
  have entry := table ⟨c.toNat, ascii⟩ ⟨n, small⟩
  rwa [Char.ofNat_toNat] at entry

/-- In lower case no character beyond ASCII becomes a digit. -/
theorem toLower_ne_digit {c : Char} (wide : 128 ≤ c.toNat) {n : Nat} (small : n < 16) :
    c.toLower ≠ digit n := by
  have table : ∀ k : Fin 16, (digit k).toNat < 128 := by decide
  have above : ¬(c.val ≥ 'A'.val ∧ c.val ≤ 'Z'.val) := by
    rintro ⟨-, upper⟩
    have : c.toNat ≤ 90 := upper
    omega
  have unchanged : c.toLower = c := dif_neg above
  intro same
  rw [unchanged] at same
  have := table ⟨n, small⟩
  rw [← same] at this
  omega

/-- The digits are the characters that in lower case write a number below sixteen. -/
theorem isDigit_iff {c : Char} : IsDigit c ↔ ∃ n < 16, c.toLower = digit n := by
  have table : ∀ k : Fin 128,
      IsDigit (Char.ofNat k) ↔ ∃ n : Fin 16, (Char.ofNat k).toLower = digit n := by
    decide +kernel
  by_cases ascii : c.toNat < 128
  · have entry := table ⟨c.toNat, ascii⟩
    rw [Char.ofNat_toNat] at entry
    rw [entry]
    exact ⟨fun ⟨n, same⟩ => ⟨n, n.isLt, same⟩, fun ⟨n, small, same⟩ => ⟨⟨n, small⟩, same⟩⟩
  · have wide : 128 ≤ c.toNat := not_lt.mp ascii
    refine iff_of_false (fun isDigit => ?_) fun ⟨n, small, same⟩ => toLower_ne_digit wide small same
    have bound : c.toNat ≤ 57 ∨ c.toNat ≤ 102 ∨ c.toNat ≤ 70 :=
      isDigit.imp (·.2) (Or.imp (·.2) (·.2))
    omega

/-- The bytes of a text write numbers exactly if its characters in lower case are their digits. -/
theorem forall₂_utf8_iff {cs : List Char} {ns : List Nat} (small : ∀ n ∈ ns, n < 16) :
    List.Forall₂ (fun byte n => digitValue? byte = some n)
      (cs.flatMap String.utf8EncodeChar) ns ↔ cs.map Char.toLower = ns.map digit := by
  induction cs generalizing ns with
  | nil =>
    rw [List.flatMap_nil, List.forall₂_nil_left_iff, List.map_nil]
    exact ⟨fun none => none ▸ rfl, fun same => List.map_eq_nil_iff.mp same.symm⟩
  | cons c rest ih =>
    rw [List.flatMap_cons, List.map_cons]
    cases ns with
    | nil =>
      refine iff_of_false (fun pairs => ?_) nofun
      have none := List.append_eq_nil_iff.mp (List.forall₂_nil_right_iff.mp pairs)
      exact String.utf8EncodeChar_ne_nil none.1
    | cons n ns =>
      rw [List.forall_mem_cons] at small
      rw [List.map_cons, List.cons.injEq]
      by_cases ascii : c.toNat < 128
      · rw [utf8EncodeChar_of_lt ascii, List.singleton_append, List.forall₂_cons, ih small.2,
          digitValue?_eq_some_iff ascii small.1]
      · have wide : 128 ≤ c.toNat := not_lt.mp ascii
        obtain ⟨byte, more, encoded, noDigit⟩ := utf8EncodeChar_of_ge wide
        rw [encoded, List.cons_append, List.forall₂_cons, noDigit]
        exact iff_of_false (fun pairs => nomatch pairs.1)
          fun same => toLower_ne_digit wide small.1 same.1

/-! ## Reading texts -/

/-- **Hexadecimal text.** A text is read as the byte string whose hexadecimal form it is in lower
case. -/
theorem decode_eq_ok_iff {text : String} {b : Bytes} :
    decode text = .ok b ↔ text.toLower = encode b := by
  have pairs : decodePairs 0 (Bytes.ofText text) = .ok b ↔ text.toLower = encode b := by
    rw [decodePairs_eq_ok_iff, Bytes.ofText, forall₂_utf8_iff fun n => lt_of_mem_halves,
      ← digits_eq, ← String.toList_inj, String.toLower, String.toList_map, encode,
      String.toList_ofList]
  rw [← pairs, decode]
  split
  · rename_i odd
    refine iff_of_false (fun read => ?_) fun read => ?_
    · cases read
    · have := (decodePairs_eq_ok_iff.mp read).length_eq
      rw [length_halves] at this
      omega
  · exact Iff.rfl

theorem encode_inj {a b : Bytes} : encode a = encode b ↔ a = b := by
  refine ⟨fun same => ?_, fun same => same ▸ rfl⟩
  have read := decode_encode a
  rw [same, decode_encode] at read
  exact (Except.ok.inj read).symm

/-- The texts that are read are the digits in pairs. -/
theorem exists_decode_iff {text : String} : (∃ b, decode text = .ok b) ↔ IsText text := by
  simp only [decode_eq_ok_iff, ← String.toList_inj, String.toLower, String.toList_map, encode,
    String.toList_ofList, digits_eq, IsText, ← String.length_toList, isDigit_iff]
  constructor
  · rintro ⟨b, same⟩
    have length := congrArg List.length same
    rw [List.length_map, List.length_map, length_halves] at length
    refine ⟨by omega, fun c member => ?_⟩
    have lower : c.toLower ∈ (halves b).map digit := same ▸ List.mem_map_of_mem member
    obtain ⟨n, half, value⟩ := List.mem_map.mp lower
    exact ⟨n, lt_of_mem_halves half, value.symm⟩
  · rintro ⟨even, each⟩
    choose! value small lower using each
    have inPairs : (text.toList.map value).length % 2 = 0 := by rwa [List.length_map]
    obtain ⟨b, whole⟩ := exists_halves inPairs (List.forall_mem_map.mpr small)
    refine ⟨b, ?_⟩
    rw [whole, List.map_map]
    exact List.map_congr_left lower

/-- Texts that are read are read as the same byte string exactly if they differ in case only. -/
theorem decode_eq_decode_iff {s t : String} (hs : IsText s) (ht : IsText t) :
    decode s = decode t ↔ s.toLower = t.toLower := by
  obtain ⟨a, read⟩ := exists_decode_iff.mpr hs
  obtain ⟨b, read'⟩ := exists_decode_iff.mpr ht
  rw [read, read', decode_eq_ok_iff.mp read, decode_eq_ok_iff.mp read', encode_inj,
    Except.ok.injEq]

end Hex
end ThresholdMask
