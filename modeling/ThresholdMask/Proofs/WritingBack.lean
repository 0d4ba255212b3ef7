import Mathlib
import ThresholdMask.Proofs.Admission
import ThresholdMask.Proofs.Ownership

/-!
# Rosters written back

A party has one identifier, but many texts write it, which differ in the case of their digits.
Settings keep the texts that they were given and a masker keeps the identifiers; writing the roster
of a masker back into settings picks one text for each party, the one in lower case.

So every masker has settings of its own (`Masker.settings`), and the settings that give a masker are
those that are its own ones as soon as their texts are put in lower case
(`Masker.ofSettings_eq_ok_iff_lowered`). Writing back leads to the masker's own settings in one step
and stays there (`Masker.withParties_keeps_masker`).
-/

namespace ThresholdMask

/-! ## Texts in lower case -/

namespace PartyId

/-- A text gives the identifier that it writes in lower case. -/
theorem ofHex_eq_ok_iff {text : String} {p : PartyId} :
    ofHex text = .ok p ↔ text.toLower = p.toHex := by
  unfold ofHex toHex
  rw [map_eq_ok]
  constructor
  · rintro ⟨b, read, rfl⟩
    exact Hex.decode_eq_ok_iff.mp read
  · intro lower
    exact ⟨p.bytes, Hex.decode_eq_ok_iff.mpr lower, rfl⟩

theorem toLower_toHex (p : PartyId) : p.toHex.toLower = p.toHex :=
  ofHex_eq_ok_iff.mp (ofHex_toHex p)

end PartyId

namespace Settings

/-- Texts give identifiers exactly if these are what they write in lower case. -/
theorem map_ofHex_eq_iff {texts : List String} {parties : List PartyId} :
    texts.map PartyId.ofHex = parties.map .ok ↔
      texts.map String.toLower = parties.map PartyId.toHex := by
  induction texts generalizing parties with
  | nil => simp
  | cons text rest ih =>
    cases parties with
    | nil => simp
    | cons p others =>
      simp only [List.map_cons, List.cons.injEq]
      rw [PartyId.ofHex_eq_ok_iff, ih]

/-- The settings with the texts of the parties in lower case. -/
def lowered (s : Settings) : Settings := { s with parties := s.parties.map String.toLower }

/-- A roster is written in lower case. -/
theorem lowered_withParties (s : Settings) (parties : List PartyId) :
    (s.withParties parties).lowered = s.withParties parties := by
  have texts : (parties.map PartyId.toHex).map String.toLower = parties.map PartyId.toHex := by
    rw [List.map_map]
    exact List.map_congr_left fun p _ => p.toLower_toHex
  show { s with parties := (parties.map PartyId.toHex).map String.toLower } = _
  rw [texts]
  rfl

end Settings

namespace Masker

variable {s : Settings} {m : Masker}

/-! ## The settings of a masker -/

/-- The settings that a masker is written down as. -/
def settings (m : Masker) : Settings where
  prime := m.prime
  degree := m.degree
  options := m.options
  parties := m.roster.parties.map PartyId.toHex

/-- Settings give a masker exactly if they are its own ones up to the case of their texts. -/
theorem ofSettings_eq_ok_iff_lowered : ofSettings s = .ok m ↔ s.lowered = m.settings := by
  rw [ofSettings_eq_ok_iff, Settings.map_ofHex_eq_iff]
  constructor
  · rintro ⟨prime, degree, options, texts⟩
    unfold Settings.lowered settings
    rw [prime, degree, options, texts]
  · intro same
    have prime : s.prime = m.prime := congrArg Settings.prime same
    have degree : s.degree = m.degree := congrArg Settings.degree same
    have options : s.options = m.options := congrArg Settings.options same
    exact ⟨prime.symm, degree.symm, options.symm, congrArg Settings.parties same⟩

theorem withParties_eq_settings (built : ofSettings s = .ok m) :
    s.withParties m.roster.parties = m.settings := by
  obtain ⟨prime, degree, options, -⟩ := ofSettings_eq_ok_iff.mp built
  unfold Settings.withParties settings
  rw [prime, degree, options]

theorem ofSettings_settings (m : Masker) : ofSettings m.settings = .ok m :=
  ofSettings_eq_ok_iff_lowered.mpr (m.settings.lowered_withParties m.roster.parties)

/-- Whatever is put into its own jar and taken out again, a masker does not take it for foreign. -/
theorem unmask_ownJar_ne_foreignJar (m : Masker) (requests : List (PartyJar.Request Bundle)) :
    m.unmask (m.buildJar.afterAll requests) ≠ .error .foreignJar := by
  obtain ⟨roster, binding⟩ := m.buildJar.owner_afterAll requests
  rw [Ne, unmask_eq_foreignJar_iff, roster, binding]
  rintro (differ | differ)
  · exact differ rfl
  · exact differ rfl

/-! ## Writing back -/

/-- **Writing back.** A roster that is written into settings is read as it was, whatever bytes its
identifiers are made of. If it is that of the masker which the settings give, at most the case of
the texts changes. The settings still give this masker: its roster, options, fields and fingerprint
are the same, so that neither masker takes a jar of the other for foreign and both unmask all jars
alike. Writing back once more changes nothing. -/
theorem withParties_keeps_masker (s : Settings) :
    (∀ parties, parties ≠ [] → (s.withParties parties).partyIds = .ok parties) ∧
      ∀ m, ofSettings s = .ok m →
        s.withParties m.roster.parties = s.lowered ∧
        ofSettings (s.withParties m.roster.parties) = .ok m ∧
        ∀ m', ofSettings (s.withParties m.roster.parties) = .ok m' →
          m'.roster = m.roster ∧ m'.options = m.options ∧ m'.degree = m.degree ∧
          m'.field = m.field ∧ (∀ kind, m'.fieldOf kind = m.fieldOf kind) ∧
          m'.fingerprint = m.fingerprint ∧
          (∀ requests, m'.unmask (m.buildJar.afterAll requests) ≠ .error .foreignJar ∧
            m.unmask (m'.buildJar.afterAll requests) ≠ .error .foreignJar) ∧
          (∀ jar, m'.unmask jar = m.unmask jar) ∧
          (s.withParties m.roster.parties).withParties m'.roster.parties =
            s.withParties m.roster.parties := by
  refine ⟨fun parties some => s.partyIds_withParties some, fun m built => ?_⟩
  have written := withParties_eq_settings built
  have again : ofSettings (s.withParties m.roster.parties) = .ok m := by
    rw [written]
    exact m.ofSettings_settings
  refine ⟨?_, again, fun m' built' => ?_⟩
  · rw [written]
    exact (ofSettings_eq_ok_iff_lowered.mp built).symm
  · obtain rfl : m = m' := Except.ok.inj (again.symm.trans built')
    have own := m.unmask_ownJar_ne_foreignJar
    exact ⟨rfl, rfl, rfl, rfl, fun _ => rfl, rfl, fun requests => ⟨own requests, own requests⟩,
      fun _ => rfl, rfl⟩

/-- The masker of three parties whose texts are in both cases. -/
def letteredMasker : Masker where
  prime := default
  degree := 2
  options := {}
  roster := ⟨[⟨[10]⟩, ⟨[255, 0]⟩, ⟨[10, 11]⟩], by decide, by decide⟩
  degree_lt := by decide

theorem lettered_written_back :
    ((lettered "0a0B" 2).withParties [⟨[]⟩, ⟨[0, 171]⟩]).partyIds =
      .ok [⟨[]⟩, ⟨[0, 171]⟩] ∧
    ofSettings (lettered "0a0B" 2) = .ok letteredMasker ∧
    ((lettered "0a0B" 2).withParties letteredMasker.roster.parties).parties =
      ["0a", "ff00", "0a0b"] ∧
    ofSettings ((lettered "0a0B" 2).withParties letteredMasker.roster.parties) =
      .ok letteredMasker := by
  have built : ofSettings (lettered "0a0B" 2) = .ok letteredMasker := by decide +kernel
  obtain ⟨read, kept⟩ := withParties_keeps_masker (lettered "0a0B" 2)
  obtain ⟨lowered, again, -⟩ := kept letteredMasker built
  refine ⟨read _ (by decide), built, ?_, again⟩
  rw [lowered]
  decide +kernel

end Masker
end ThresholdMask
