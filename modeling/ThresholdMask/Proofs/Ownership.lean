import Mathlib
import ThresholdMask.Proofs.Locality

/-!
# Whose jar it is

The string that is hashed for a fingerprint can be read off again, part by part: the context stands
behind its length, the degree and the key fields take up its last ten bytes and leave the name of
the prime, and the identifiers of the parties stand behind their lengths, whatever bytes they are
made of. So it determines how a masker shares (`Masker.bindingBytes_inj`), and unless the digests
of two such strings collide, a jar is foreign to exactly the maskers that share in another way
(`Masker.unmask_foreign_iff`).
-/

namespace ThresholdMask

/-! ## Only the jar is foreign -/

theorem UnmaskError.AtValue.ne_foreignJar {e : UnmaskError} (h : e.AtValue) : e ≠ .foreignJar := by
  rintro rfl
  exact h

namespace Masker

variable {m : Masker}

theorem unmaskBundles_ne_foreignJar {p : PartyId} {first : Bundle}
    {others : List (PartyId × Bundle)} :
    FailsOnly (· ≠ .foreignJar) (m.unmaskBundles visit p first others) := by
  have names : ∀ c ∈ others, FailsOnly (· ≠ .foreignJar) (checkNames p first c.1 c.2) := fun _ _ =>
    failsOnly_checkNames (fun _ _ _ => nofun) (fun _ _ _ => nofun)
  refine .bind (.eachContribution names) fun _ _ => ?_
  exact .bind (atValue_mapM_unmaskNamed.mono fun _ h => h.ne_foreignJar) fun _ _ => .ok _

/-- A jar is refused as foreign only for its binding or its roster. -/
theorem unmask_eq_foreignJar_iff {jar : BundleJar} : m.unmask jar = .error .foreignJar ↔
    jar.binding ≠ m.fingerprint ∨ jar.roster ≠ m.roster := by
  unfold unmask
  by_cases foreign : jar.binding ≠ m.fingerprint ∨ jar.roster ≠ m.roster
  · rw [if_pos foreign]
    exact ⟨fun _ => foreign, fun _ => rfl⟩
  · rw [if_neg foreign]
    refine ⟨fun refused => ?_, fun h => absurd h foreign⟩
    split at refused
    · cases refused
    · split at refused
      · cases refused
      · cases refused
      · exact absurd rfl (unmaskBundles_ne_foreignJar _ refused)

/-! ## What is hashed -/

/-- Two maskers share in the same way. Options that only guide unmasking do not matter. -/
structure SameSharing (a b : Masker) : Prop where
  prime : a.prime = b.prime
  degree : a.degree = b.degree
  ecdsaKeyField : a.options.ecdsaKeyField = b.options.ecdsaKeyField
  eddsaKeyField : a.options.eddsaKeyField = b.options.eddsaKeyField
  roster : a.roster = b.roster

/-- The byte string that is hashed for the fingerprint. -/
def bindingBytes (m : Masker) : Bytes := m.roster.bindingBytes m.bindingContext

/-- The digest that is the fingerprint, of any byte string. -/
def bindingDigest (b : Bytes) : FixedBytes 32 :=
  Blake3.deriveKey (Bytes.ofText Roster.fingerprintContext) b

theorem fingerprint_eq (m : Masker) : m.fingerprint = bindingDigest m.bindingBytes := rfl

theorem length_bindingContext_lt (m : Masker) : m.bindingContext.length < 1 <<< (8 * 8) := by
  have name : (Bytes.ofText m.prime.name).length ≤ 4 := by cases m.prime <;> decide
  rw [bindingContext, List.length_append, List.length_append, Bytes.length_ofNatLE]
  simp only [List.length_cons, List.length_nil]
  omega

theorem ofText_name_inj {p q : SafePrime} : Bytes.ofText p.name = Bytes.ofText q.name ↔ p = q := by
  cases p <;> cases q <;> decide

theorem tag_inj {f g : KeyField} : f.tag = g.tag ↔ f = g := by
  cases f <;> cases g <;> decide

/-- The context determines prime, degree and key fields. -/
theorem bindingContext_inj {a b : Masker} (ha : a.degree < 1 <<< (8 * 8))
    (hb : b.degree < 1 <<< (8 * 8)) : a.bindingContext = b.bindingContext ↔
      a.prime = b.prime ∧ a.degree = b.degree ∧
        a.options.ecdsaKeyField = b.options.ecdsaKeyField ∧
        a.options.eddsaKeyField = b.options.eddsaKeyField := by
  constructor
  · intro same
    rw [bindingContext, bindingContext, List.append_assoc, List.append_assoc] at same
    -- names may have different lengths, so the string is taken apart from its end
    obtain ⟨names, rest⟩ := List.append_inj' same (by simp)
    obtain ⟨degrees, tags⟩ := List.append_inj rest (by simp)
    obtain ⟨ecdsa, others⟩ := List.cons.inj tags
    exact ⟨ofText_name_inj.mp names, (Bytes.ofNatLE_inj ha hb).mp degrees, tag_inj.mp ecdsa,
      tag_inj.mp (List.cons.inj others).1⟩
  · rintro ⟨prime, degree, ecdsa, eddsa⟩
    rw [bindingContext, bindingContext, prime, degree, ecdsa, eddsa]

theorem bindingBytes_inj {a b : Masker} (ha : a.roster.Addressable) (hb : b.roster.Addressable) :
    a.bindingBytes = b.bindingBytes ↔ a.SameSharing b := by
  rw [bindingBytes, bindingBytes, Roster.bindingBytes_inj ha hb a.length_bindingContext_lt
    b.length_bindingContext_lt, bindingContext_inj (a.degree_lt.trans ha.size)
    (b.degree_lt.trans hb.size)]
  constructor
  · rintro ⟨⟨prime, degree, ecdsa, eddsa⟩, roster⟩
    exact ⟨prime, degree, ecdsa, eddsa, roster⟩
  · rintro ⟨prime, degree, ecdsa, eddsa, roster⟩
    exact ⟨⟨prime, degree, ecdsa, eddsa⟩, roster⟩

/-! ## Foreign jars -/

/-- **Ownership.** Whatever was put into a jar that a masker has built, and taken out again: to
another masker the jar is foreign exactly if it shares in another way, as long as the digests of
the two strings that are hashed do not collide. These strings tell apart all ways of sharing. -/
theorem unmask_foreign_iff {a b : Masker} (ha : a.roster.Addressable)
    (hb : b.roster.Addressable)
    (noCollision : bindingDigest a.bindingBytes = bindingDigest b.bindingBytes →
      a.bindingBytes = b.bindingBytes) (requests : List (PartyJar.Request Bundle)) :
    (b.unmask (a.buildJar.afterAll requests) = .error .foreignJar ↔ ¬a.SameSharing b) ∧
      (a.bindingBytes = b.bindingBytes ↔ a.SameSharing b) := by
  have hashed := bindingBytes_inj ha hb
  refine ⟨?_, hashed⟩
  obtain ⟨roster, binding⟩ := a.buildJar.owner_afterAll requests
  have digests : a.fingerprint = b.fingerprint ↔ a.SameSharing b := by
    rw [← hashed, fingerprint_eq, fingerprint_eq]
    exact ⟨noCollision, congrArg bindingDigest⟩
  rw [unmask_eq_foreignJar_iff, roster, binding]
  show a.fingerprint ≠ b.fingerprint ∨ a.roster ≠ b.roster ↔ _
  rw [Ne, digests]
  constructor
  · rintro (differ | differ) same
    · exact differ same
    · exact differ same.roster
  · exact .inl

/-- The three parties of `trio` where a single share opens everything. -/
def openTrio : Masker := { trio with degree := 0, degree_lt := by decide }

/-- The masker `trio` with other options for unmasking. -/
def strictTrio : Masker :=
  { trio with options := { trio.options with kappa := 80, requireFullRoster := true } }

theorem foreign_to_openTrio : trio.roster.Addressable ∧ openTrio.roster.Addressable ∧
    openTrio.unmask (trio.buildJar.afterAll wideRequests) = .error .foreignJar ∧
    strictTrio.unmask (trio.buildJar.afterAll wideRequests) ≠ .error .foreignJar := by
  have addressable : trio.roster.Addressable := ⟨by decide, by decide⟩
  have apart : bindingDigest trio.bindingBytes ≠ bindingDigest openTrio.bindingBytes := by
    decide +kernel
  have toOpen := unmask_foreign_iff (a := trio) (b := openTrio) addressable addressable
    (absurd · apart) wideRequests
  have toStrict := unmask_foreign_iff (a := trio) (b := strictTrio) addressable addressable
    (fun _ => rfl) wideRequests
  refine ⟨addressable, addressable, toOpen.1.mpr fun same => ?_, mt toStrict.1.mp fun differ => ?_⟩
  · exact absurd same.degree (by decide)
  · exact differ ⟨rfl, rfl, rfl, rfl, rfl⟩

end Masker
end ThresholdMask
