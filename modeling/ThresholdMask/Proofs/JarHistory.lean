import Mathlib
import ThresholdMask.Proofs.Opening

/-!
# A jar tells its history

What a jar holds, and what it replies to a request, is determined by the requests that it has served
before: under a party of the roster there is the element that the last request about the party put
in, and none if that request took the element out or if there was no such request
(`PartyJar.standing?`). Requests of parties off the roster leave no trace.

`PartyJar.tells_history` puts this together for runs of any requests: the replies, what is found
under each party, and the listings, which follow the roster and not the requests.
-/

namespace ThresholdMask

namespace PartyJar

variable {α : Type}

/-! ## Replies -/

/-- The reply to a request: the element that it displaces, or a refusal. -/
def reply (j : PartyJar α) : Request α → Except UnknownParty (Option α)
  | .add p element => (j.add p element).map (·.1)
  | .remove p => .ok (j.remove p).1

/-- The replies to requests that are served one after the other. -/
def replies (j : PartyJar α) : List (Request α) → List (Except UnknownParty (Option α))
  | [] => []
  | r :: rest => j.reply r :: (j.after r).replies rest

/-! ## What requests leave standing -/

/-- The party that a request is about. -/
def Request.party : Request α → PartyId
  | .add p _ | .remove p => p

/-- The element that a request puts in. -/
def Request.element? : Request α → Option α
  | .add _ element => some element
  | .remove _ => none

/-- The element that the last request about a party of the roster put in. -/
def standing? (R : Roster) (requests : List (Request α)) (p : PartyId) : Option α :=
  if p ∈ R.parties then (requests.reverse.find? (·.party = p)).bind Request.element? else none

/-- The reply that a request deserves after others. -/
def dueReply (R : Roster) (before : List (Request α)) : Request α → Except UnknownParty (Option α)
  | .add p _ => if p ∈ R.parties then .ok (standing? R before p) else .error ⟨p⟩
  | .remove p => .ok (standing? R before p)

/-- An element stands under a party exactly if it was put in for the party, which is on the roster,
and no request about the party has come since. -/
theorem standing?_eq_some_iff {R : Roster} {requests : List (Request α)} {p : PartyId} {a : α} :
    standing? R requests p = some a ↔ p ∈ R.parties ∧ ∃ before later,
      requests = before ++ .add p a :: later ∧ ∀ r ∈ later, r.party ≠ p := by
  unfold standing?
  by_cases onRoster : p ∈ R.parties
  · rw [if_pos onRoster, Option.bind_eq_some_iff]
    simp only [onRoster, true_and, List.find?_eq_some_iff_append]
    constructor
    · rintro ⟨r, ⟨about, newer, older, split, since⟩, puts⟩
      cases r with
      | add q b =>
        obtain rfl : q = p := of_decide_eq_true about
        obtain rfl : b = a := Option.some.inj puts
        refine ⟨older.reverse, newer.reverse, ?_, fun r member => ?_⟩
        · rw [← List.reverse_reverse requests, split]
          simp
        · simpa using since r (List.mem_reverse.mp member)
      | remove q => cases puts
    · rintro ⟨before, later, rfl, since⟩
      refine ⟨.add p a, ⟨by simp [Request.party], later.reverse, before.reverse, by simp, ?_⟩, rfl⟩
      intro r member
      simpa using since r (List.mem_reverse.mp member)
  · rw [if_neg onRoster]
    simp [onRoster]

theorem standing?_append_singleton (R : Roster) (before : List (Request α)) (r : Request α)
    (p : PartyId) :
    standing? R (before ++ [r]) p =
      if r.party = p ∧ p ∈ R.parties then r.element? else standing? R before p := by
  unfold standing?
  rw [List.reverse_append, List.reverse_singleton, List.singleton_append]
  by_cases onRoster : p ∈ R.parties
  · by_cases about : r.party = p
    · rw [if_pos onRoster, if_pos ⟨about, onRoster⟩, List.find?_cons_of_pos (by simpa using about)]
      rfl
    · rw [if_pos onRoster, if_pos onRoster, if_neg fun both => about both.1,
        List.find?_cons_of_neg (by simpa using about)]
  · rw [if_neg onRoster, if_neg onRoster, if_neg fun both => onRoster both.2]

/-! ## One request -/

/-- A request changes what is found under its own party only, and only if this is on the roster. -/
theorem get?_after (j : PartyJar α) (r : Request α) (p : PartyId) :
    (j.after r).get? p =
      if r.party = p ∧ p ∈ j.roster.parties then r.element? else j.get? p := by
  cases r with
  | add q element =>
    by_cases onRoster : q ∈ j.roster.parties
    · obtain ⟨next, added, -, -, found⟩ := add_of_mem onRoster element
      have changed : j.after (.add q element) = next := by simp [after, added]
      rw [changed, found]
      by_cases same : p = q
      · subst same
        rw [if_pos rfl, if_pos ⟨rfl, onRoster⟩]
        rfl
      · rw [if_neg same, if_neg fun both => same both.1.symm]
    · have unchanged : j.after (.add q element) = j := by simp [after, add_of_not_mem onRoster]
      have other : ¬(q = p ∧ p ∈ j.roster.parties) := fun both => onRoster (both.1 ▸ both.2)
      rw [unchanged, Request.party, if_neg other]
  | remove q =>
    show (j.remove q).2.get? p = _
    rw [get?_remove]
    by_cases same : p = q
    · subst same
      rw [if_pos rfl]
      by_cases onRoster : p ∈ j.roster.parties
      · rw [if_pos ⟨rfl, onRoster⟩]
        rfl
      · rw [if_neg fun both => onRoster both.2, get?_of_not_mem onRoster]
    · rw [if_neg same, if_neg fun both => same both.1.symm]

theorem reply_eq (j : PartyJar α) (r : Request α) :
    j.reply r =
      match r with
      | .add p _ => if p ∈ j.roster.parties then .ok (j.get? p) else .error ⟨p⟩
      | .remove p => .ok (j.get? p) := by
  cases r with
  | add p element =>
    show (j.add p element).map (·.1) = if p ∈ j.roster.parties then .ok (j.get? p) else .error ⟨p⟩
    by_cases onRoster : p ∈ j.roster.parties
    · obtain ⟨next, added, -⟩ := add_of_mem onRoster element
      rw [added, if_pos onRoster]
      rfl
    · rw [add_of_not_mem onRoster element, if_neg onRoster]
      rfl
  | remove p =>
    show Except.ok (j.remove p).1 = .ok (j.get? p)
    rw [fst_remove]

/-! ## Runs -/

variable {R : Roster} {binding : FixedBytes 32}

theorem afterAll_append_singleton (j : PartyJar α) (before : List (Request α)) (r : Request α) :
    j.afterAll (before ++ [r]) = (j.afterAll before).after r := by
  rw [afterAll, afterAll, List.foldl_append, List.foldl_cons, List.foldl_nil]

/-- After any requests, a jar that was new holds what they leave standing. -/
theorem get?_afterAll (requests : List (Request α)) (p : PartyId) :
    ((empty R binding).afterAll requests).get? p = standing? R requests p := by
  induction requests using List.reverseRecOn with
  | nil =>
    show (empty R binding).get? p = _
    rw [get?_empty, standing?]
    simp
  | append_singleton before r ih =>
    have owner := (empty R binding : PartyJar α).owner_afterAll before
    rw [afterAll_append_singleton, get?_after, standing?_append_singleton, ih, owner.1]
    rfl

theorem reply_afterAll (before : List (Request α)) (r : Request α) :
    ((empty R binding).afterAll before).reply r = dueReply R before r := by
  have owner := (empty R binding : PartyJar α).owner_afterAll before
  rw [reply_eq, owner.1]
  cases r with
  | add p element => simp only [get?_afterAll]; rfl
  | remove p => simp only [get?_afterAll]; rfl

/-- The replies to further requests depend on those before. -/
theorem replies_afterAll (before requests : List (Request α)) :
    ((empty R binding).afterAll before).replies requests =
      List.zipWith (fun since r => dueReply R (before ++ since) r) requests.inits requests := by
  induction requests generalizing before with
  | nil => rfl
  | cons r rest ih =>
    have others := ih (before ++ [r])
    rw [afterAll_append_singleton] at others
    rw [replies, reply_afterAll, others, List.inits_cons, List.zipWith_cons_cons,
      List.zipWith_map_left, List.append_nil]
    simp only [List.append_assoc, List.singleton_append]

/-- **History.** Whatever is put into a new jar and taken out again, in whatever order: every
request is answered with the element that it displaces, an element from a party off the roster is
refused and changes nothing, and under each party there is the element that was last put in for it
and not taken out since. Both listings have the elements that are there in roster order, the missing
parties are the others in roster order, and together these are as many as the roster has. -/
theorem tells_history (R : Roster) (binding : FixedBytes 32) (requests : List (Request α)) :
    (empty R binding).replies requests = List.zipWith (dueReply R) requests.inits requests ∧
      ∃ jar, (empty R binding).afterAll requests = jar ∧
        (∀ p a, p ∉ R.parties → jar.add p a = .error ⟨p⟩ ∧ jar.after (.add p a) = jar) ∧
        (∀ p, jar.get? p = standing? R requests p) ∧
        (∀ p a, standing? R requests p = some a ↔ p ∈ R.parties ∧ ∃ before later,
          requests = before ++ .add p a :: later ∧ ∀ r ∈ later, r.party ≠ p) ∧
        jar.elements = R.parties.filterMap (fun p => (standing? R requests p).map (p, ·)) ∧
        jar.intoElements = jar.elements ∧
        jar.missing = R.parties.filter (fun p => (standing? R requests p).isNone) ∧
        jar.size = jar.elements.length ∧ jar.size + jar.missing.length = R.size := by
  have owner := (empty R binding : PartyJar α).owner_afterAll requests
  have found : ∀ p, ((empty R binding).afterAll requests).get? p = standing? R requests p :=
    get?_afterAll requests
  generalize same : (empty R binding : PartyJar α).afterAll requests = jar at owner found
  obtain ⟨roster, -⟩ := owner
  replace roster : jar.roster = R := roster
  refine ⟨replies_afterAll [] requests, jar, rfl, ?_, found, fun p a => standing?_eq_some_iff, ?_,
    jar.intoElements_eq, ?_, jar.length_elements.symm, ?_⟩
  · intro p a offRoster
    rw [← roster] at offRoster
    have refused := add_of_not_mem offRoster a
    exact ⟨refused, by rw [after, refused]⟩
  · rw [jar.elements_eq, roster]
    simp only [found]
  · rw [jar.missing_eq, roster]
    simp only [found]
  · rw [jar.size_add_length_missing, roster]

/-- The last party puts in an element and replaces it, a stranger is refused, and what the first
party puts in is taken out again. -/
def busyRequests : List (Request Nat) :=
  [.add ⟨[3]⟩ 7, .add ⟨[1]⟩ 5, .add ⟨[9]⟩ 4, .add ⟨[3]⟩ 8, .remove ⟨[1]⟩, .add ⟨[2]⟩ 6]

theorem busyRequests_history : ⟨[9]⟩ ∉ Masker.trio.roster.parties ∧
    (empty Masker.trio.roster Masker.trio.fingerprint).replies busyRequests =
      [.ok none, .ok none, .error ⟨⟨[9]⟩⟩, .ok (some 7), .ok (some 5), .ok none] ∧
    ∃ jar, (empty Masker.trio.roster Masker.trio.fingerprint).afterAll busyRequests = jar ∧
      jar.add ⟨[9]⟩ 4 = .error ⟨⟨[9]⟩⟩ ∧ jar.elements = [(⟨[2]⟩, 6), (⟨[3]⟩, 8)] ∧
      jar.missing = [⟨[1]⟩] := by
  obtain ⟨replies, jar, run, refused, -, -, elements, -, missing, -⟩ :=
    tells_history Masker.trio.roster Masker.trio.fingerprint busyRequests
  have stranger : ⟨[9]⟩ ∉ Masker.trio.roster.parties := by decide
  refine ⟨stranger, replies.trans rfl, jar, run, (refused _ 4 stranger).1, ?_, ?_⟩
  · rw [elements]
    decide
  · rw [missing]
    decide

end PartyJar
end ThresholdMask
