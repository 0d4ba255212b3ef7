import Mathlib
import ThresholdMask.Field.Power
import ThresholdMask.Field.SafePrime

/-!
# The fixed moduli are prime

Pocklington's test proves a number prime from a part of its predecessor that exceeds its square root
and whose prime factors are known: `prime_of_pocklington`. A `PrimalityStep` is one such test, and a
list of steps may use the numbers proved before. One list reaches the three safe primes and the two
group orders, and the kernel runs it: each power is square-and-multiply, so a 256-bit number costs a
few hundred multiplications.
-/

namespace ThresholdMask

/-! ## Pocklington's test -/

/-- A divisor of an exponent that gives one divides the order, if no prime of it can be left out of
the exponent. -/
theorem dvd_orderOf {G : Type} [Monoid G] {x : G} {n part : Nat} (unit : x ^ n = 1)
    (divides : part ∣ n) (needed : ∀ q, q.Prime → q ∣ part → x ^ (n / q) ≠ 1) :
    part ∣ orderOf x := by
  have order : orderOf x ∣ n := orderOf_dvd_of_pow_eq_one unit
  -- a prime that the part shares with the cofactor of the order could be left out
  have coprime : part.Coprime (n / orderOf x) := by
    apply Nat.Coprime.symm
    apply Nat.coprime_of_dvd
    intro q hq inCofactor inPart
    refine needed q hq inPart (orderOf_dvd_iff_pow_eq_one.mp ?_)
    rw [Nat.dvd_div_iff_mul_dvd (inPart.trans divides), mul_comm]
    exact (Nat.dvd_div_iff_mul_dvd order).mp inCofactor
  apply coprime.dvd_of_dvd_mul_right
  rwa [Nat.mul_div_cancel' order]

/-- If a base has order dividing `n - 1` modulo `n`, and modulo no prime factor of `n` an order that
lacks a prime of `part`, then every prime factor of `n` exceeds `part`. -/
theorem prime_of_pocklington {n base part : Nat} (two : 2 ≤ n) (divides : part ∣ n - 1)
    (large : n < part * part) (fermat : powMod n base (n - 1) = 1)
    (coprime : ∀ q, q.Prime → q ∣ part →
      Nat.gcd (powMod n base ((n - 1) / q) + (n - 1)) n = 1) : n.Prime := by
  by_contra composite
  obtain ⟨r, prime, factor, small⟩ : ∃ r, r.Prime ∧ r ∣ n ∧ r * r ≤ n :=
    ⟨n.minFac, Nat.minFac_prime (by omega), n.minFac_dvd, by
      simpa [sq] using Nat.minFac_sq_le_self (by omega) composite⟩
  have : Fact r.Prime := ⟨prime⟩
  have cast (e : Nat) : (powMod n base e : ZMod r) = (base : ZMod r) ^ e := by
    rw [powMod_eq, ← Nat.cast_pow, ZMod.natCast_eq_natCast_iff]
    exact (Nat.mod_modEq _ n).of_dvd factor
  have unit : (base : ZMod r) ^ (n - 1) = 1 := by
    rw [← cast, fermat, Nat.cast_one]
  have partOrder : part ∣ orderOf (base : ZMod r) := by
    apply dvd_orderOf unit divides
    intro q hq inPart lacking
    have common : r ∣ powMod n base ((n - 1) / q) + (n - 1) := by
      rw [← ZMod.natCast_eq_zero_iff, Nat.cast_add, cast, lacking, Nat.cast_sub (by omega),
        (ZMod.natCast_eq_zero_iff n r).mpr factor]
      ring
    have one := Nat.dvd_gcd common factor
    rw [coprime q hq inPart] at one
    exact prime.one_lt.ne' (Nat.dvd_one.mp one)
  have nonzero : (base : ZMod r) ≠ 0 := by
    intro zero
    rw [zero, zero_pow (by omega)] at unit
    exact zero_ne_one unit
  have bound : part ≤ r - 1 := by
    have positive : 0 < r - 1 := by
      have := prime.two_le
      omega
    exact Nat.le_of_dvd positive (partOrder.trans (ZMod.orderOf_dvd_card_sub_one nonzero))
  -- the smallest factor would have a square above `n`
  have := Nat.mul_le_mul (bound.trans (Nat.sub_le r 1)) (bound.trans (Nat.sub_le r 1))
  omega

/-! ## Lists of tests -/

/-- One test: the number, the base, and the known part of its predecessor as primes with their
exponents. -/
structure PrimalityStep where
  number : Nat
  base : Nat
  factors : List (Nat × Nat)

namespace PrimalityStep

/-- The known part of the predecessor. -/
def part (s : PrimalityStep) : Nat := (s.factors.map fun f => f.1 ^ f.2).prod

/-- The test passes, its primes being among those already proved. -/
def passes (proved : List Nat) (s : PrimalityStep) : Bool :=
  2 ≤ s.number && (s.number - 1) % s.part == 0 && s.number < s.part * s.part &&
    powMod s.number s.base (s.number - 1) == 1 &&
    s.factors.all fun f => proved.contains f.1 &&
      Nat.gcd (powMod s.number s.base ((s.number - 1) / f.1) + (s.number - 1)) s.number == 1

/-- The numbers proved by a list of tests, none if one of them fails. -/
def run (proved : List Nat) : List PrimalityStep → List Nat
  | [] => proved
  | s :: rest => if s.passes proved then run (s.number :: proved) rest else []

theorem prime_of_passes {proved : List Nat} (primes : ∀ q ∈ proved, q.Prime) {s : PrimalityStep}
    (h : s.passes proved = true) : s.number.Prime := by
  simp only [passes, Bool.and_eq_true, decide_eq_true_eq, beq_iff_eq, List.all_eq_true,
    List.contains_iff_mem] at h
  obtain ⟨⟨⟨⟨two, divides⟩, large⟩, fermat⟩, factors⟩ := h
  refine prime_of_pocklington two (Nat.dvd_of_mod_eq_zero divides) large fermat ?_
  intro q hq inPart
  obtain ⟨power, inFactors, dvd⟩ := (Prime.dvd_prod_iff hq.prime).mp inPart
  obtain ⟨f, member, rfl⟩ := List.mem_map.mp inFactors
  obtain ⟨known, coprime⟩ := factors f member
  obtain rfl : q = f.1 :=
    (Nat.prime_dvd_prime_iff_eq hq (primes _ known)).mp (hq.dvd_of_dvd_pow dvd)
  exact coprime

theorem prime_of_mem_run {proved : List Nat} (primes : ∀ q ∈ proved, q.Prime)
    {steps : List PrimalityStep} : ∀ n ∈ run proved steps, n.Prime := by
  induction steps generalizing proved with
  | nil => exact primes
  | cons s rest ih =>
    rw [run]
    split
    · rename_i passed
      refine ih (List.forall_mem_cons.mpr ⟨prime_of_passes primes passed, primes⟩)
    · simp

end PrimalityStep

/-! ## The moduli -/

/-- Primes below a million that the tests start from. -/
def smallPrimes : List Nat :=
  [2, 5, 3, 23, 31, 149, 179, 233, 631, 2411, 4787, 6599, 28181, 143719, 305873, 531581]

theorem prime_of_mem_smallPrimes : ∀ q ∈ smallPrimes, q.Prime := by
  simp only [smallPrimes, List.forall_mem_cons]
  norm_num

/-- Tests that end in the moduli. -/
def moduliSteps : List PrimalityStep :=
  [⟨9223372036318953473, 3, [(2, 20), (4787, 1)]⟩,
    ⟨SafePrime.u64.modulus, 2, [(9223372036318953473, 1)]⟩,
    ⟨134856431746484731, 2, [(2, 1), (3, 1), (149, 1), (179, 1), (2411, 1)]⟩,
    ⟨968269179939760368581, 2, [(134856431746484731, 1)]⟩,
    ⟨170141183460469231731687303714552414209, 2, [(968269179939760368581, 1)]⟩,
    ⟨SafePrime.u128.modulus, 2, [(170141183460469231731687303714552414209, 1)]⟩,
    ⟨11229569360894224871, 3, [(5, 1), (31, 1), (233, 1), (143719, 1)]⟩,
    ⟨2829851478945344667493, 2, [(11229569360894224871, 1)]⟩,
    ⟨781166464699526826551891884721, 2, [(2829851478945344667493, 1)]⟩,
    ⟨57896044618658097711785492504343953926634992332820282019728792003955698696193, 3,
      [(2, 21), (6599, 1), (781166464699526826551891884721, 1)]⟩,
    ⟨SafePrime.u256.modulus, 2,
      [(57896044618658097711785492504343953926634992332820282019728792003955698696193, 1)]⟩,
    ⟨545358713, 2, [(28181, 1)]⟩,
    ⟨29047611873442575647497758179, 2, [(2, 1), (305873, 1), (545358713, 1)]⟩,
    ⟨341948486974166000522343609283189, 2, [(29047611873442575647497758179, 1)]⟩,
    ⟨PrimeField.secp256k1Order.modulus, 5,
      [(2, 6), (149, 1), (631, 1), (341948486974166000522343609283189, 1)]⟩,
    ⟨1257559732178653, 2, [(2, 2), (23, 1), (531581, 1)]⟩,
    ⟨4434155615661930479, 2, [(1257559732178653, 1)]⟩,
    ⟨172054593956031949258510691, 2, [(4434155615661930479, 1)]⟩,
    ⟨19757330305831588566944191468367130476339, 2, [(172054593956031949258510691, 1)]⟩,
    ⟨276602624281642239937218680557139826668747, 2,
      [(19757330305831588566944191468367130476339, 1)]⟩,
    ⟨PrimeField.ed25519Order.modulus, 2, [(276602624281642239937218680557139826668747, 1)]⟩]

theorem prime_of_tested {n : Nat} (tested : n ∈ PrimalityStep.run smallPrimes moduliSteps) :
    n.Prime :=
  PrimalityStep.prime_of_mem_run prime_of_mem_smallPrimes n tested

theorem SafePrime.prime_modulus (p : SafePrime) : p.modulus.Prime := by
  apply prime_of_tested
  cases p <;> decide +kernel

namespace PrimeField

theorem prime_secp256k1Order : secp256k1Order.modulus.Prime :=
  prime_of_tested (by decide +kernel)

theorem prime_ed25519Order : ed25519Order.modulus.Prime :=
  prime_of_tested (by decide +kernel)

end PrimeField
end ThresholdMask
