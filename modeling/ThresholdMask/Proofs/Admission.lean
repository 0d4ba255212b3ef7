import Mathlib
import ThresholdMask.Masker.Basic
import ThresholdMask.Proofs.HexText

/-!
# Which settings give a masker

Settings pass three layers on their way to a masker: their texts are decoded, the identifiers have
to make up a roster, and the roster has to have more parties than the degree. Each layer says in its
own words what is wrong. `Masker.Refused` lists all of it, by what the settings are like: nobody is
named, a text is not hexadecimal, a party recurs, or the degree is too high.

Settings of which none of this is true give a masker (`Masker.ofSettings_admits`), with the parties
in the order of the settings and their abscissas counted from one. What counts are the bytes that a
text writes, so that two texts that differ in case only name one party.
-/

namespace ThresholdMask

/-! ## Texts of identifiers -/

namespace PartyId

theorem exists_ofHex_iff {text : String} : (∃ p, ofHex text = .ok p) ↔ Hex.IsText text := by
  rw [← Hex.exists_decode_iff]
  simp only [ofHex, map_eq_ok]
  constructor
  · rintro ⟨_, b, read, -⟩
    exact ⟨b, read⟩
  · rintro ⟨b, read⟩
    exact ⟨⟨b⟩, b, read, rfl⟩

/-- Texts that are read give the same identifier exactly if they differ in case only. -/
theorem ofHex_eq_ofHex_iff {a b : String} (ha : Hex.IsText a) (hb : Hex.IsText b) :
    ofHex a = ofHex b ↔ a.toLower = b.toLower := by
  rw [← Hex.decode_eq_decode_iff ha hb, ofHex, ofHex]
  cases Hex.decode a <;> cases Hex.decode b <;> simp [Except.map]

end PartyId

namespace Settings

variable {s : Settings}

/-- Texts are decoded one by one, in order. -/
theorem decodeIds_eq_ok_iff {start : Nat} {texts : List String} {parties : List PartyId} :
    decodeIds start texts = .ok parties ↔ texts.map PartyId.ofHex = parties.map .ok := by
  induction texts generalizing start parties with
  | nil =>
    rw [decodeIds, Except.ok.injEq, List.map_nil]
    exact ⟨fun none => none ▸ rfl, fun same => (List.map_eq_nil_iff.mp same.symm).symm⟩
  | cons text rest ih =>
    rw [decodeIds, List.map_cons]
    cases PartyId.ofHex text with
    | error e => cases parties <;> simp
    | ok p => cases parties <;> simp [map_eq_ok, ih, and_comm]

theorem length_of_ids {texts : List String} {parties : List PartyId}
    (ids : texts.map PartyId.ofHex = parties.map .ok) : texts.length = parties.length := by
  simpa using congrArg List.length ids

/-- Texts give identifiers exactly if each one is hexadecimal. -/
theorem exists_ids_iff {texts : List String} :
    (∃ parties : List PartyId, texts.map PartyId.ofHex = parties.map .ok) ↔
      ∀ text ∈ texts, Hex.IsText text := by
  constructor
  · rintro ⟨parties, ids⟩ text member
    have decoded : PartyId.ofHex text ∈ parties.map .ok := ids ▸ List.mem_map_of_mem member
    obtain ⟨p, -, read⟩ := List.mem_map.mp decoded
    exact PartyId.exists_ofHex_iff.mp ⟨p, read.symm⟩
  · intro each
    have read : ∀ text ∈ texts, ∃ p, PartyId.ofHex text = .ok p := fun text member =>
      PartyId.exists_ofHex_iff.mpr (each text member)
    have : Nonempty PartyId := ⟨⟨[]⟩⟩
    choose! id decoded using read
    refine ⟨texts.map id, ?_⟩
    rw [List.map_map]
    exact List.map_congr_left decoded

/-- The first text that is not hexadecimal is reported, with its position. -/
theorem split_of_decodeIds_error {texts : List String} {e : SettingsError} {start : Nat}
    (failed : decodeIds start texts = .error e) :
    ∃ before text rest source, texts = before ++ text :: rest ∧
      (∀ t ∈ before, Hex.IsText t) ∧ PartyId.ofHex text = .error source ∧
        e = .invalidId (start + before.length) text source := by
  induction texts generalizing start with
  | nil => cases failed
  | cons first others ih =>
    rw [decodeIds] at failed
    cases read : PartyId.ofHex first with
    | error source =>
      rw [read] at failed
      exact ⟨[], first, others, source, rfl, by simp, read, (Except.error.inj failed).symm⟩
    | ok p =>
      rw [read] at failed
      obtain ⟨before, text, rest, source, split, fine, bad, rfl⟩ := ih (map_eq_error.mp failed)
      have here := PartyId.exists_ofHex_iff.mp ⟨p, read⟩
      refine ⟨first :: before, text, rest, source, by rw [split]; rfl,
        List.forall_mem_cons.mpr ⟨here, fine⟩, bad, ?_⟩
      rw [List.length_cons, Nat.add_right_comm, Nat.add_assoc]

theorem partyIds_eq_ok_iff {parties : List PartyId} :
    s.partyIds = .ok parties ↔
      s.parties ≠ [] ∧ s.parties.map PartyId.ofHex = parties.map .ok := by
  rw [partyIds, error_ite_eq_ok, decodeIds_eq_ok_iff, List.isEmpty_iff]

end Settings

/-! ## Lists as rosters -/

/-- What is found to repeat is the first to do so. -/
theorem split_of_firstRepeat? {α : Type} [DecidableEq α] {seen l : List α} {a : α}
    (found : firstRepeat? seen l = some a) :
    ∃ before rest, l = before ++ a :: rest ∧ before.Nodup ∧ (∀ b ∈ before, b ∉ seen) ∧
      (a ∈ before ∨ a ∈ seen) := by
  induction l generalizing seen with
  | nil => cases found
  | cons first others ih =>
    rw [firstRepeat?] at found
    split at found
    · obtain rfl := Option.some.inj found
      exact ⟨[], others, rfl, .nil, by simp, .inr ‹_›⟩
    · rename_i fresh
      obtain ⟨before, rest, rfl, nodup, others, again⟩ := ih found
      have apart : ∀ b ∈ before, b ≠ first ∧ b ∉ seen := fun b member =>
        not_or.mp (mt List.mem_cons.mpr (others b member))
      refine ⟨first :: before, rest, rfl, ?_, ?_, ?_⟩
      · exact List.nodup_cons.mpr ⟨fun member => (apart first member).1 rfl, nodup⟩
      · exact List.forall_mem_cons.mpr ⟨fresh, fun b member => (apart b member).2⟩
      · rw [List.mem_cons] at again ⊢
        tauto

namespace Roster

theorem ofList_eq_ok_iff {parties : List PartyId} {R : Roster} :
    ofList parties = .ok R ↔ R.parties = parties :=
  ⟨parties_of_ofList, fun same => same ▸ ofList_parties R⟩

/-- Of several parties that recur the first to do so is reported. -/
theorem split_of_ofList_error {parties : List PartyId} {e : RosterError} (some : parties ≠ [])
    (failed : ofList parties = .error e) :
    ∃ before p rest, parties = before ++ p :: rest ∧ before.Nodup ∧ p ∈ before ∧
      e = .duplicate p := by
  rw [ofList, dif_neg some] at failed
  split at failed
  · rename_i p repeated
    obtain ⟨before, rest, split, fresh, -, again⟩ := split_of_firstRepeat? repeated
    refine ⟨before, p, rest, split, fresh, ?_, (Except.error.inj failed).symm⟩
    exact again.resolve_right (List.not_mem_nil)
  · cases failed

/-- The parties stand at the abscissas counted from one, and nobody else stands anywhere. -/
theorem abscissa?_eq (R : Roster) :
    (∀ i p, R.parties[i]? = some p → R.abscissa? p = some (i + 1)) ∧
      ∀ p ∉ R.parties, R.abscissa? p = none := by
  refine ⟨fun i p here => ?_, fun p stranger => ?_⟩
  · rw [abscissa?, position?_eq_some_iff.mpr here]
    rfl
  · rw [abscissa?, position?_eq_none_iff.mpr stranger]
    rfl

end Roster

/-! ## Settings as maskers -/

namespace Masker

variable {s : Settings} {m : Masker}

theorem ofParties_eq_ok_iff {prime : SafePrime} {degree : Nat} {parties : List PartyId}
    {options : MaskerOptions} :
    ofParties prime degree parties options = .ok m ↔
      m.prime = prime ∧ m.degree = degree ∧ m.options = options ∧ m.roster.parties = parties := by
  unfold ofParties
  constructor
  · intro built
    split at built
    · cases built
    · rename_i R listed
      split at built
      · cases built
        exact ⟨rfl, rfl, rfl, Roster.ofList_eq_ok_iff.mp listed⟩
      · cases built
  · rintro ⟨rfl, rfl, rfl, rfl⟩
    rw [Roster.ofList_parties]
    exact dif_pos m.degree_lt

/-- A masker is that of the settings exactly if it has their prime, degree and options, and the
parties of its roster are what their texts write. -/
theorem ofSettings_eq_ok_iff :
    ofSettings s = .ok m ↔ m.prime = s.prime ∧ m.degree = s.degree ∧ m.options = s.options ∧
      s.parties.map PartyId.ofHex = m.roster.parties.map .ok := by
  unfold ofSettings
  constructor
  · intro built
    split at built
    · cases built
    · rename_i parties decoded
      obtain ⟨prime, degree, options, rfl⟩ := ofParties_eq_ok_iff.mp built
      exact ⟨prime, degree, options, (Settings.partyIds_eq_ok_iff.mp decoded).2⟩
  · rintro ⟨prime, degree, options, ids⟩
    have some : s.parties ≠ [] := by
      intro none
      rw [none] at ids
      exact m.roster.parties_ne_nil (List.map_eq_nil_iff.mp ids.symm)
    rw [Settings.partyIds_eq_ok_iff.mpr ⟨some, ids⟩]
    exact ofParties_eq_ok_iff.mpr ⟨prime, degree, options, rfl⟩

/-- What is wrong with settings, and what is reported. -/
inductive Refused (s : Settings) : MaskerError → Prop
  | noParties (none : s.parties = []) : Refused s (.settings .noParties)
  /-- The text is the first that is not hexadecimal. -/
  | invalidId {before rest : List String} {text : String} {source : HexError}
      (split : s.parties = before ++ text :: rest) (fine : ∀ t ∈ before, Hex.IsText t)
      (bad : ¬Hex.IsText text) : Refused s (.settings (.invalidId before.length text source))
  /-- The party is the first to recur, by the bytes that its text writes. -/
  | duplicate {before rest : List PartyId} {p : PartyId}
      (ids : s.parties.map PartyId.ofHex = (before ++ p :: rest).map .ok) (fresh : before.Nodup)
      (again : p ∈ before) : Refused s (.roster (.duplicate p))
  | degree {parties : List PartyId} (ids : s.parties.map PartyId.ofHex = parties.map .ok)
      (nodup : parties.Nodup) (few : s.parties.length ≤ s.degree) :
      Refused s (.degree ⟨s.degree, s.parties.length⟩)

/-- Decoding the texts fails where nobody is named or a text is not hexadecimal. -/
theorem refused_of_partyIds {e : SettingsError} (failed : s.partyIds = .error e) :
    Refused s (.settings e) := by
  unfold Settings.partyIds at failed
  split at failed
  · obtain rfl := Except.error.inj failed
    exact .noParties (List.isEmpty_iff.mp ‹_›)
  · obtain ⟨before, text, rest, source, split, fine, bad, rfl⟩ :=
      Settings.split_of_decodeIds_error failed
    rw [Nat.zero_add]
    refine .invalidId split fine fun isText => ?_
    obtain ⟨p, read⟩ := PartyId.exists_ofHex_iff.mpr isText
    rw [bad] at read
    cases read

/-- Building from decoded parties fails where one recurs or there are too few of them. -/
theorem refused_of_ofParties {parties : List PartyId} {e : MaskerError}
    (decoded : s.partyIds = .ok parties)
    (failed : ofParties s.prime s.degree parties s.options = .error e) : Refused s e := by
  obtain ⟨some, ids⟩ := Settings.partyIds_eq_ok_iff.mp decoded
  have named : parties ≠ [] := by
    rintro rfl
    exact some (List.map_eq_nil_iff.mp ids)
  unfold ofParties at failed
  split at failed
  · rename_i source notListed
    obtain rfl := Except.error.inj failed
    obtain ⟨before, p, rest, rfl, fresh, again, rfl⟩ := Roster.split_of_ofList_error named notListed
    exact .duplicate ids fresh again
  · rename_i R listed
    obtain rfl := Roster.ofList_eq_ok_iff.mp listed
    split at failed
    · cases failed
    · rename_i few
      obtain rfl := Except.error.inj failed
      rw [Roster.size, ← Settings.length_of_ids ids] at few ⊢
      exact .degree ids R.nodup (not_lt.mp few)

theorem refused_of_error {e : MaskerError} (failed : ofSettings s = .error e) : Refused s e := by
  unfold ofSettings at failed
  split at failed
  · rename_i source notDecoded
    obtain rfl := Except.error.inj failed
    exact refused_of_partyIds notDecoded
  · rename_i parties decoded
    exact refused_of_ofParties decoded failed

/-- Settings give a masker exactly if nothing is wrong with them. -/
theorem exists_ofSettings_iff :
    (∃ m, ofSettings s = .ok m) ↔
      s.parties ≠ [] ∧ (∀ text ∈ s.parties, Hex.IsText text) ∧
        (s.parties.map PartyId.ofHex).Nodup ∧ s.degree < s.parties.length := by
  have injective : Function.Injective (Except.ok : PartyId → Except HexError PartyId) :=
    fun _ _ => Except.ok.inj
  constructor
  · rintro ⟨m, built⟩
    obtain ⟨-, degree, -, ids⟩ := ofSettings_eq_ok_iff.mp built
    refine ⟨?_, Settings.exists_ids_iff.mp ⟨_, ids⟩, ?_, ?_⟩
    · intro none
      rw [none] at ids
      exact m.roster.parties_ne_nil (List.map_eq_nil_iff.mp ids.symm)
    · rw [ids]
      exact m.roster.nodup.map injective
    · rw [← degree, Settings.length_of_ids ids]
      exact m.degree_lt
  · rintro ⟨some, texts, nodup, high⟩
    obtain ⟨parties, ids⟩ := Settings.exists_ids_iff.mpr texts
    rw [ids] at nodup
    have named : parties ≠ [] := by
      rintro rfl
      exact some (List.map_eq_nil_iff.mp ids)
    rw [Settings.length_of_ids ids] at high
    let R : Roster := ⟨parties, named, .of_map _ nodup⟩
    exact ⟨⟨s.prime, s.degree, s.options, R, high⟩,
      ofSettings_eq_ok_iff.mpr ⟨rfl, rfl, rfl, ids⟩⟩

/-- **Admission.** Settings give a masker exactly if they name somebody, all texts are hexadecimal,
no two of them write the same bytes, and there are more parties than the degree; otherwise they are
refused as an invalid configuration, with the reason. Texts that differ in case only write the same
bytes. The parties of the masker are what the texts write, in their order and with abscissas from
one, and nobody else has an abscissa. The same parties and degree give a sharer over every field,
and the number of bundles that unmask, one more than the degree, is no more than the number of
parties, so that it fits into a machine word if this number does. -/
theorem ofSettings_admits (s : Settings) :
    ((∃ m, ofSettings s = .ok m) ↔
      s.parties ≠ [] ∧ (∀ text ∈ s.parties, Hex.IsText text) ∧
        (s.parties.map PartyId.ofHex).Nodup ∧ s.degree < s.parties.length) ∧
      (∀ a b, Hex.IsText a → Hex.IsText b →
        (PartyId.ofHex a = PartyId.ofHex b ↔ a.toLower = b.toLower)) ∧
      (∀ e, ofSettings s = .error e →
        Refused s e ∧ e.message = "invalid masker configuration: " ++ e.cause) ∧
      ∀ m, ofSettings s = .ok m →
        s.parties.map PartyId.ofHex = m.roster.parties.map .ok ∧
        (∀ i p, m.roster.parties[i]? = some p → m.roster.abscissa? p = some (i + 1)) ∧
        (∀ p ∉ m.roster.parties, m.roster.abscissa? p = none) ∧
        (∀ F, Sharer.ofDegree F s.degree m.roster = .ok (m.sharer F)) ∧
        m.threshold = s.degree + 1 ∧ m.threshold ≤ s.parties.length ∧
        (s.parties.length < UInt64.size →
          (UInt64.ofNat s.degree + 1).toNat = m.threshold) := by
  refine ⟨exists_ofSettings_iff, fun a b => PartyId.ofHex_eq_ofHex_iff, fun e failed => ?_,
    fun m built => ?_⟩
  · exact ⟨refused_of_error failed, rfl⟩
  · obtain ⟨-, degree, -, ids⟩ := ofSettings_eq_ok_iff.mp built
    obtain ⟨places, strangers⟩ := m.roster.abscissa?_eq
    have high : m.threshold ≤ s.parties.length := by
      rw [Settings.length_of_ids ids]
      exact m.degree_lt
    have threshold : m.threshold = s.degree + 1 := congrArg (· + 1) degree
    refine ⟨ids, places, strangers, fun F => ?_, threshold, high, fun addressable => ?_⟩
    · rw [← degree]
      exact dif_pos m.degree_lt
    · rw [UInt64.toNat_add, UInt64.toNat_ofNat']
      have : (1 : UInt64).toNat = 1 := rfl
      have : UInt64.size = 2 ^ 64 := rfl
      omega

/-- Settings of three parties, the last with any text. -/
def lettered (last : String) (degree : Nat) : Settings :=
  { (default : Settings) with degree, parties := ["0a", "FF00", last] }

theorem lettered_admitted :
    (∃ m, ofSettings (lettered "0a0B" 2) = .ok m ∧ m.roster.abscissa? ⟨[255, 0]⟩ = some 2 ∧
      m.threshold = 3) ∧
    PartyId.ofHex "0a" = PartyId.ofHex "0A" ∧
    Refused (lettered "0A" 2) (.roster (.duplicate ⟨[10]⟩)) ∧
    ¬∃ m, ofSettings (lettered "0a0B" 18446744073709551615) = .ok m := by
  have recurs : ofSettings (lettered "0A" 2) = .error (.roster (.duplicate ⟨[10]⟩)) := by
    decide +kernel
  obtain ⟨admits, cases, -, built⟩ := ofSettings_admits (lettered "0a0B" 2)
  refine ⟨?_, (cases "0a" "0A" (by decide +kernel) (by decide +kernel)).mpr (by decide +kernel),
    ((ofSettings_admits _).2.2.1 _ recurs).1, fun admitted => ?_⟩
  · obtain ⟨m, same⟩ := admits.mpr (by decide +kernel)
    obtain ⟨ids, places, -, -, threshold, -⟩ := built m same
    have parties : m.roster.parties = [⟨[10]⟩, ⟨[255, 0]⟩, ⟨[10, 11]⟩] := by
      have read : (lettered "0a0B" 2).parties.map PartyId.ofHex =
          [⟨[10]⟩, ⟨[255, 0]⟩, ⟨[10, 11]⟩].map .ok := by
        decide +kernel
      exact (List.map_injective_iff.mpr fun _ _ => Except.ok.inj) (ids.symm.trans read)
    exact ⟨m, same, places 1 _ (by rw [parties]; rfl), threshold⟩
  · have high := ((ofSettings_admits _).1.mp admitted).2.2.2
    exact absurd high (by decide)

end Masker
end ThresholdMask
