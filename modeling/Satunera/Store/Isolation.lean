import Satunera.Base.Parts
import Satunera.Store.Lifecycle
import Satunera.Store.Refinement

/-!
# Users do not see each other

Between two swaps of the catalog, what one user's submissions go through depends on nothing that is done for another
user: calls get the same replies and reads the same answers with everything else left out.

* `Exchange.part` : the user whose rows an exchange is about, or none if it is about the table of users;
* `Exchange.Minted` : ids are minted for one user or one submission, `Exchange.Traffic` : the catalog stays and only
  users who have signed up before submit;
* `Owned`, `Agrees` : what the ids say of a ledger, and when two ledgers agree on a part;
* `parts_ledger` : the parts of the ledger do not depend on each other;
* `store_splits` : exchanges are a history of the store exactly when those of each part are.
-/

namespace Satunera.Store

open Satunera.Base Satunera.Contracts

variable {F : TextForms}

/-! ## Parts -/

section Parts
variable (owner : SubmissionId → UserId) (subject : RunId → SubmissionId) (K : UserId → Prop)

/-- The user whose rows an exchange is about. The others are about the table of users or the catalog. -/
def Exchange.part : Exchange F → Option UserId
  | .call (.createUser ..) _ | .call (.replaceProblems _) _ => none
  | .call (.createSubmission id _ _) _ | .call (.setSubmissionStatus _ id _) _ => some (owner id)
  | .call (.finishSubmission _ id _) _ => some (owner id)
  | .call (.recordRun _ _ run) _ => some (owner run.submissionId)
  | .read (.submission id) _ | .read (.runsForSubmission id) _ => some (owner id)
  | .read (.latestVerdictForHash userId _) _ | .read (.submissionsForUser userId _) _ => some userId
  | .read (.progress userId _) _ => some userId
  | .read _ _ => none

/-- A submission id is minted for one user, a run id for one submission. -/
def Exchange.Minted : Exchange F → Prop
  | .call (.createSubmission id _ submission) _ => owner id = submission.userId
  | .call (.recordRun id _ run) _ => subject id = run.submissionId
  | _ => True

/-- The catalog stays, nothing scans the submissions of all users, and only users in `K` submit. -/
def Exchange.Traffic : Exchange F → Prop
  | .call (.replaceProblems _) _ | .read .inFlightSubmissions _ => False
  | .call (.createSubmission _ _ submission) _ => K submission.userId
  | _ => True

/-- Submissions and runs are those of the users and the submissions their ids were minted for. -/
structure Owned (a : Ledger) : Prop where
  owner_eq : ∀ s, a.submissions.Mem s → owner s.id = s.userId
  subject_eq : ∀ r, a.runs.Mem r → subject r.id = r.submissionId

/-- The ledgers agree on a part. -/
def Agrees (a b : Ledger) : Option UserId → Prop
  | none => a.users = b.users
  | some u => (∀ id, owner id = u → a.submissions.find id = b.submissions.find id) ∧
      (∀ claim, owner claim.1 = u → a.runs.find claim = b.runs.find claim) ∧
      ∀ problemId, a.progress.find (u, problemId) = b.progress.find (u, problemId)

/-- What holds of a ledger from which there is traffic. -/
structure Settled (a : Ledger) : Prop extends Owned owner subject a where
  known : ∀ u, K u → (a.users.find u).isSome

/-- The ledgers have the same catalog and agree on a part. -/
structure SamePart (c : Option UserId) (a b : Ledger) : Prop where
  left : Settled owner subject K a
  right : Settled owner subject K b
  problems : a.problems = b.problems
  agrees : Agrees owner a b c

variable {owner subject K} {a a' b : Ledger} {c : Option UserId}

theorem Agrees.refl (a : Ledger) (c : Option UserId) : Agrees owner a a c := by
  cases c with
  | none => rfl
  | some u => exact ⟨fun _ _ => rfl, fun _ _ => rfl, fun _ => rfl⟩

theorem Agrees.symm (h : Agrees owner a b c) : Agrees owner b a c := by
  cases c with
  | none => exact Eq.symm h
  | some u => exact ⟨fun id hid => (h.1 id hid).symm, fun k hk => (h.2.1 k hk).symm, fun p => (h.2.2 p).symm⟩

theorem Agrees.trans {d : Ledger} (h : Agrees owner a b c) (h' : Agrees owner b d c) : Agrees owner a d c := by
  cases c with
  | none => exact Eq.trans h h'
  | some u =>
    exact ⟨fun id hid => (h.1 id hid).trans (h'.1 id hid), fun k hk => (h.2.1 k hk).trans (h'.2.1 k hk),
      fun p => (h.2.2 p).trans (h'.2.2 p)⟩

/-! ## What a step leaves -/

variable (owner subject) in
theorem owned_empty : Owned owner subject Ledger.empty :=
  ⟨fun s hs => absurd hs (Indexed.not_mem_empty s), fun r hr => absurd hr (Indexed.not_mem_empty r)⟩

theorem Owned.moves (h : Owned owner subject a) {call : Call F} {r : Reply} (hmove : a.Moves call r a')
    (hmint : (Exchange.call call (.ok r)).Minted owner subject) : Owned owner subject a' := by
  cases hmove with
  | createUser | replaceProblems => exact ⟨h.owner_eq, h.subject_eq⟩
  | createSubmission =>
    refine ⟨fun s hs => ?_, h.subject_eq⟩
    rcases Indexed.mem_put.mp hs with rfl | ⟨hs, -⟩
    · exact hmint
    · exact h.owner_eq s hs
  | @setSubmissionStatus _ _ _ s₀ hs₀ | @finishSubmission _ _ _ s₀ hs₀ =>
    refine ⟨fun s hs => ?_, h.subject_eq⟩
    rcases Indexed.mem_put.mp hs with rfl | ⟨hs, -⟩
    · exact h.owner_eq s₀ (Indexed.mem_of_find hs₀)
    · exact h.owner_eq s hs
  | recordRun =>
    refine ⟨h.owner_eq, fun r hr => ?_⟩
    rcases Indexed.mem_put.mp hr with rfl | ⟨hr, -⟩
    · exact hmint
    · exact h.subject_eq r hr

theorem Owned.step (h : Owned owner subject a) {x : Exchange F} (hstep : LedgerStep a x a')
    (hmint : x.Minted owner subject) : Owned owner subject a' := by
  cases hstep with
  | performs happly => exact h.moves (Ledger.moves_of_apply happly) hmint
  | refuses | fails | reads => exact h

theorem Settled.step (h : Settled owner subject K a) {x : Exchange F} (hstep : LedgerStep a x a')
    (hmint : x.Minted owner subject) : Settled owner subject K a' := by
  refine ⟨h.toOwned.step hstep hmint, fun u hu => ?_⟩
  cases hstep with
  | performs happly =>
    cases Ledger.moves_of_apply happly with
    | createUser =>
      rw [Indexed.find_put]
      split
      · rfl
      · exact h.known u hu
    | replaceProblems | createSubmission | setSubmissionStatus | finishSubmission | recordRun => exact h.known u hu
  | refuses | fails | reads => exact h.known u hu

/-- Traffic leaves the catalog. -/
theorem LedgerStep.problems_eq {x : Exchange F} (hstep : LedgerStep a x a') (htraffic : x.Traffic K) :
    a'.problems = a.problems := by
  cases hstep with
  | performs happly =>
    cases Ledger.moves_of_apply happly with
    | replaceProblems => exact htraffic.elim
    | createUser | createSubmission | setSubmissionStatus | finishSubmission | recordRun => rfl
  | refuses | fails | reads => rfl

/-- A step of one part leaves the others. -/
theorem Owned.frame (h : Owned owner subject a) {x : Exchange F} (hstep : LedgerStep a x a')
    (hpart : x.part owner ≠ c) : Agrees owner a' a c := by
  cases hstep with
  | refuses | fails | reads => exact .refl a c
  | performs happly =>
    have hmove := Ledger.moves_of_apply happly
    cases c with
    | none =>
      cases hmove with
      | createUser => exact absurd rfl hpart
      | replaceProblems | createSubmission | setSubmissionStatus | finishSubmission | recordRun => rfl
    | some u =>
      cases hmove with
      | createUser | replaceProblems => exact ⟨fun _ _ => rfl, fun _ _ => rfl, fun _ => rfl⟩
      | createSubmission =>
        refine ⟨fun k hk => Indexed.find_put_of_ne _ ?_, fun _ _ => rfl, fun _ => rfl⟩
        rintro rfl
        exact hpart (congrArg some hk)
      | setSubmissionStatus hs =>
        refine ⟨fun k hk => Indexed.find_put_of_ne _ ?_, fun _ _ => rfl, fun _ => rfl⟩
        rintro rfl
        exact hpart (congrArg some (a.submissions.key_of_find hs ▸ hk))
      | @finishSubmission _ id verdict s hs =>
        have hid := a.submissions.key_of_find hs
        have hne : owner id ≠ u := fun he => hpart (congrArg some he)
        refine ⟨fun k hk => Indexed.find_put_of_ne _ ?_, fun _ _ => rfl, fun p => ?_⟩
        · rintro rfl
          exact hne (hid ▸ hk)
        · dsimp only
          split
          · refine Indexed.find_put_of_ne _ fun hp => hne ?_
            rw [Ledger.tally_pair] at hp
            rw [← hid, h.owner_eq s (Indexed.mem_of_find hs)]
            exact (Prod.ext_iff.mp hp).1.symm
          · rfl
      | recordRun =>
        refine ⟨fun _ _ => rfl, fun k hk => Indexed.find_put_of_ne _ ?_, fun _ => rfl⟩
        rintro rfl
        exact hpart (congrArg some hk)

/-! ## What a step depends on -/

/-- The same reply, with ledgers that agree on a part; or the same error. -/
def Alike (owner : SubmissionId → UserId) (c : Option UserId) :
    Except StoreError (Reply × Ledger) → Except StoreError (Reply × Ledger) → Prop
  | .ok (r, a), .ok (r', b) => r = r' ∧ Agrees owner a b c
  | .error e, .error e' => e = e'
  | _, _ => False

theorem Agrees.putSubmission {u : UserId} (h : Agrees owner a b (some u)) (s : Submission) :
    Agrees owner { a with submissions := a.submissions.put s } { b with submissions := b.submissions.put s }
      (some u) :=
  ⟨fun id hid => Indexed.find_put_congr (h.1 id hid) s, h.2⟩

/-- A run id minted for a submission is taken in both or in neither, where they agree on its user. -/
theorem SamePart.exists_run_iff {submissionId : SubmissionId}
    (h : SamePart owner subject K (some (owner submissionId)) a b) {id : RunId} (hmint : subject id = submissionId) :
    (∃ r, a.runs.Mem r ∧ r.id = id) ↔ ∃ r, b.runs.Mem r ∧ r.id = id := by
  have hrun : ∀ r : Run, r.id = id → subject r.id = r.submissionId → owner r.claim.1 = owner submissionId := by
    rintro r rfl hr
    rw [← hmint, hr]
    rfl
  constructor
  · rintro ⟨r, hr, hrid⟩
    exact ⟨r, (h.agrees.2.1 _ (hrun r hrid (h.left.subject_eq r hr))).symm.trans hr, hrid⟩
  · rintro ⟨r, hr, hrid⟩
    exact ⟨r, (h.agrees.2.1 _ (hrun r hrid (h.right.subject_eq r hr))).trans hr, hrid⟩

/-- What a call does to its part, and its reply, depend on that part alone. -/
theorem SamePart.apply {call : Call F} {r : Except StoreError Reply}
    (h : SamePart owner subject K ((Exchange.call call r).part owner) a b)
    (hmint : (Exchange.call call r).Minted owner subject) (htraffic : (Exchange.call call r).Traffic K) :
    Alike owner ((Exchange.call call r).part owner) (call.apply a) (call.apply b) := by
  have hagrees := h.agrees
  cases call with
  | replaceProblems => exact htraffic.elim
  | createUser id now user =>
    have husers : a.users = b.users := hagrees
    have htaken : (a.HasUser user ∨ (a.users.find id).isSome) ↔ (b.HasUser user ∨ (b.users.find id).isSome) := by
      rw [Ledger.HasUser, Ledger.HasUser, husers]
    simp only [Call.apply, Ledger.createUser]
    by_cases hin : a.HasUser user ∨ (a.users.find id).isSome
    · rw [if_pos hin, if_pos (htaken.mp hin)]
      rfl
    · rw [if_neg hin, if_neg (mt htaken.mpr hin)]
      refine ⟨rfl, ?_⟩
      show a.users.put _ = b.users.put _
      rw [husers]
  | createSubmission id now submission =>
    have huser := Option.isSome_iff_ne_none.mp (h.left.known _ htraffic)
    have huser' := Option.isSome_iff_ne_none.mp (h.right.known _ htraffic)
    simp only [Call.apply, Ledger.createSubmission, hagrees.1 id rfl, h.problems, Option.isNone_iff_eq_none, huser,
      huser', false_or]
    split_ifs
    · rfl
    · rfl
    · exact ⟨rfl, hagrees.putSubmission _⟩
  | setSubmissionStatus now id status =>
    simp only [Call.apply, Ledger.setSubmissionStatus, hagrees.1 id rfl]
    cases b.submissions.find id with
    | none => rfl
    | some s =>
      dsimp only
      split_ifs
      · exact ⟨rfl, hagrees.putSubmission _⟩
      · rfl
  | finishSubmission now id verdict =>
    simp only [Call.apply, Ledger.finishSubmission, hagrees.1 id rfl]
    cases hs : b.submissions.find id with
    | none => rfl
    | some s =>
      have huser : owner id = s.userId := by
        rw [← b.submissions.key_of_find hs, h.right.owner_eq s (Indexed.mem_of_find hs)]
      have htally : a.tally (s.userId, s.problemId) (solveTime verdict now.time) =
          b.tally (s.userId, s.problemId) (solveTime verdict now.time) := by
        rw [Ledger.tally, Ledger.tally, ← huser, hagrees.2.2 s.problemId]
      dsimp only
      split_ifs
      · refine ⟨rfl, fun k hk => Indexed.find_put_congr (hagrees.1 k hk) _, hagrees.2.1, fun p => ?_⟩
        dsimp only
        rw [htally]
        exact Indexed.find_put_congr (hagrees.2.2 p) _
      · exact ⟨rfl, fun k hk => Indexed.find_put_congr (hagrees.1 k hk) _, hagrees.2⟩
      · rfl
  | recordRun id now run =>
    have htaken : ((a.runs.find (run.submissionId, run.attempt)).isSome ∨ ∃ r, a.runs.Mem r ∧ r.id = id) ↔
        (b.runs.find (run.submissionId, run.attempt)).isSome ∨ ∃ r, b.runs.Mem r ∧ r.id = id := by
      rw [h.exists_run_iff hmint, hagrees.2.1 (run.submissionId, run.attempt) rfl]
    simp only [Call.apply, Ledger.recordRun, hagrees.1 run.submissionId rfl]
    by_cases hin : (a.runs.find (run.submissionId, run.attempt)).isSome ∨ ∃ r, a.runs.Mem r ∧ r.id = id
    · rw [if_pos hin, if_pos (htaken.mp hin)]
      rfl
    rw [if_neg hin, if_neg (mt htaken.mpr hin)]
    split_ifs
    · rfl
    · exact ⟨rfl, hagrees.1, fun claim hclaim => Indexed.find_put_congr (hagrees.2.1 claim hclaim) _, hagrees.2.2⟩

/-- So does the answer of a read. -/
theorem SamePart.answers {q : Query} {x y : Except StoreError q.Answer}
    (h : SamePart owner subject K ((Exchange.read q y : Exchange F).part owner) a b)
    (htraffic : (Exchange.read q y : Exchange F).Traffic K) (hx : a.Answers F q x) : b.Answers F q x := by
  have hagrees := h.agrees
  have hsubs : ∀ s u, Agrees owner a b (some u) →
      (a.submissions.Mem s ∧ s.userId = u ↔ b.submissions.Mem s ∧ s.userId = u) := by
    intro s u hu
    constructor
    · rintro ⟨hs, rfl⟩
      exact ⟨(hu.1 s.id (h.left.owner_eq s hs)).symm.trans hs, rfl⟩
    · rintro ⟨hs, rfl⟩
      exact ⟨(hu.1 s.id (h.right.owner_eq s hs)).trans hs, rfl⟩
  cases q with
  | inFlightSubmissions => exact htraffic.elim
  | user id | userByHandle handle =>
    have husers : a.users = b.users := hagrees
    simp only [Ledger.Answers] at hx ⊢
    rwa [← husers]
  | problem id | problems =>
    simp only [Ledger.Answers] at hx ⊢
    rwa [← h.problems]
  | submission id => exact hx.trans (by rw [hagrees.1 id rfl])
  | latestVerdictForHash userId sourceHash =>
    obtain ⟨ss, hss, rfl⟩ := hx
    refine ⟨ss, hss.congr fun s => ?_, rfl⟩
    rw [← and_assoc, hsubs s userId hagrees, and_assoc]
  | submissionsForUser userId limit =>
    obtain ⟨ss, hss, rfl⟩ := hx
    exact ⟨ss, hss.congr fun s => hsubs s userId hagrees, rfl⟩
  | runsForSubmission id =>
    obtain ⟨rs, hrs, rfl⟩ := hx
    refine ⟨rs, hrs.congr fun r => and_congr_left fun hr => ?_, rfl⟩
    rw [Indexed.Mem, hagrees.2.1 r.claim (congrArg owner hr), Indexed.Mem]
  | progress userId problemId => exact hx.trans (by rw [hagrees.2.2 problemId])

/-- A call that answers with an error leaves the ledger. -/
theorem LedgerStep.eq_of_error {call : Call F} {e : StoreError} (h : LedgerStep a (.call call (.error e)) a') :
    a' = a := by
  cases h <;> rfl

theorem LedgerStep.apply_of_ok {call : Call F} {r : Reply} (h : LedgerStep a (.call call (.ok r)) a') :
    call.apply a = .ok (r, a') := by
  cases h
  assumption

/-- **The parts of the ledger do not depend on each other.** -/
theorem parts_ledger (owner : SubmissionId → UserId) (subject : RunId → SubmissionId) (K : UserId → Prop) :
    Parts (LedgerStep (F := F)) (fun x => x.Minted owner subject ∧ x.Traffic K) (Exchange.part owner)
      (SamePart owner subject K) where
  symm h := ⟨h.right, h.left, h.problems.symm, h.agrees.symm⟩
  trans h h' := ⟨h.left, h'.right, h.problems.trans h'.problems, h.agrees.trans h'.agrees⟩
  frame := by
    rintro c a x a' ⟨hmint, htraffic⟩ hpart hsame hstep
    exact ⟨hsame.left.step hstep hmint, hsame.left, hstep.problems_eq htraffic, hsame.left.frame hstep hpart⟩
  answers := by
    rintro a b x a' ⟨hmint, htraffic⟩ hsame hstep
    cases hstep with
    | fails => exact ⟨b, .fails⟩
    | reads hx => exact ⟨b, .reads (hsame.answers htraffic hx)⟩
    | @refuses call e happly =>
      have halike := hsame.apply hmint htraffic
      rw [happly] at halike
      cases hb : call.apply b with
      | ok r => rw [hb] at halike; exact halike.elim
      | error e' =>
        rw [hb] at halike
        obtain rfl : e = e' := halike
        exact ⟨b, .refuses hb⟩
    | @performs call r a' happly =>
      have halike := hsame.apply hmint htraffic
      rw [happly] at halike
      cases hb : call.apply b with
      | error e => rw [hb] at halike; exact halike.elim
      | ok rb =>
        rw [hb] at halike
        obtain ⟨rfl, -⟩ := halike
        exact ⟨rb.2, .performs hb⟩
  follows := by
    rintro a b x a' b' ⟨hmint, htraffic⟩ hsame ha hb
    refine ⟨hsame.left.step ha hmint, hsame.right.step hb hmint, ?_, ?_⟩
    · rw [ha.problems_eq htraffic, hb.problems_eq htraffic, hsame.problems]
    cases x with
    | read q x =>
      cases ha
      cases hb
      exact hsame.agrees
    | call call r =>
      cases r with
      | error e =>
        obtain rfl := ha.eq_of_error
        obtain rfl := hb.eq_of_error
        exact hsame.agrees
      | ok r =>
        have halike := hsame.apply hmint htraffic
        rw [ha.apply_of_ok, hb.apply_of_ok] at halike
        exact halike.2

end Parts

/-! ## The store -/

/-- What holds of exchanges `h` from the tables `db`, with submission ids minted by `owner`. -/
structure Splits (owner : SubmissionId → UserId) (db : Db) (h : List (Exchange F)) : Prop where
  /-- They are a history exactly when those of each part are. -/
  parts : (∃ db', History StoreStep db h db') ↔
    ∀ c, ∃ db', History StoreStep db (h.filter fun x => x.part owner = c) db'
  /-- In any order that is the same for each part, they are a history still. -/
  reorders : ∀ h', (∀ c, h.filter (fun x => x.part owner = c) = h'.filter fun x => x.part owner = c) →
    (∃ db', History StoreStep db h db') → ∃ db', History StoreStep db h' db'

/-- **Users do not see each other:** after any history, traffic of the users signed up by then is a history exactly when
each user's part of it is, and the part about the table of users and the catalog, with the same replies and the same
answers. -/
theorem store_splits (owner : SubmissionId → UserId) (subject : RunId → SubmissionId) {past h : List (Exchange F)}
    {db : Db} (hpast : History StoreStep Db.empty past db) (hminted : ∀ x ∈ past ++ h, x.Minted owner subject)
    (htraffic : ∀ x ∈ h, x.Traffic fun u => (db.users.find? (F.ulid u.ulid)).isSome) : Splits owner db h := by
  obtain ⟨a, hledger, hrep⟩ := simulates.history hpast represents_empty
  have howned : Owned owner subject a :=
    hledger.invariant (P := Owned owner subject) (A := fun x => x.Minted owner subject)
      (fun _ _ _ hmint h hstep => h.step hstep hmint) (fun x hx => hminted x (List.mem_append_left _ hx))
      (owned_empty owner subject)
  have hsettled : Settled owner subject (fun u => (db.users.find? (F.ulid u.ulid)).isSome) a :=
    ⟨howned, fun u hu => (hrep.users.isSome_find? coded_user).mp hu⟩
  have hparts := parts_ledger (F := F) owner subject fun u => (db.users.find? (F.ulid u.ulid)).isSome
  have hsame : ∀ c, SamePart owner subject (fun u => (db.users.find? (F.ulid u.ulid)).isSome) c a a :=
    fun c => ⟨hsettled, hsettled, rfl, .refl a c⟩
  have hall : ∀ x ∈ h, x.Minted owner subject ∧ x.Traffic fun u => (db.users.find? (F.ulid u.ulid)).isSome :=
    fun x hx => ⟨hminted x (List.mem_append_right _ hx), htraffic x hx⟩
  have hstore : ∀ g : List (Exchange F), (∃ db', History StoreStep db g db') ↔ ∃ a', History LedgerStep a g a' :=
    history_iff simulates simulates_back hrep
  constructor
  · simp only [hstore]
    exact hparts.history_iff hsame hall
  · intro h' hh' hhist
    rw [hstore] at hhist ⊢
    obtain ⟨a', ha'⟩ := hhist
    obtain ⟨b, hb, -⟩ := hparts.reorder hsame hall hh' ha'
    exact ⟨b, hb⟩

/-- Two users and a problem. -/
def twoUsers (now : Clock .crockford) : List (Step .crockford) :=
  closingRun.take 2 ++ [⟨.createUser ⟨3⟩ now ⟨"bob", "bob@example.org", "$argon2id$", .learner⟩, none⟩]

/-- Each of them submits, and the first submission is prepared. -/
def twoSubmissions (now : Clock .crockford) : List (Step .crockford) :=
  [⟨.createSubmission ⟨2⟩ now ⟨⟨1⟩, ⟨"mempool-fees"⟩, .py, "ab12", "blobs/source/ab/ab12"⟩, none⟩,
    ⟨.createSubmission ⟨4⟩ now ⟨⟨3⟩, ⟨"mempool-fees"⟩, .cpp, "cd34", "blobs/source/cd/cd34"⟩, none⟩,
    ⟨.setSubmissionStatus now ⟨2⟩ .preparing, none⟩]

theorem store_splits_twoSubmissions :
    Splits (fun id => if id = ⟨2⟩ then ⟨1⟩ else ⟨3⟩) (after Db.empty (twoUsers (secondClock 0)))
      (exchanges (after Db.empty (twoUsers (secondClock 0))) (twoSubmissions (secondClock 1))) := by
  refine store_splits _ (fun _ => ⟨2⟩) (history_exchanges Db.empty (twoUsers (secondClock 0))) ?_ ?_
  · simp [exchanges, twoUsers, closingRun, twoSubmissions, Exchange.Minted]
  · intro x hx
    simp only [exchanges, twoSubmissions, List.mem_cons, List.not_mem_nil, or_false] at hx
    rcases hx with rfl | rfl | rfl
    · rfl
    · rfl
    · trivial

end Satunera.Store
