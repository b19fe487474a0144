import Satunera.Base.Sorting
import Satunera.Store.Codec
import Satunera.Store.Lifecycle
import Satunera.Store.Log

/-!
# A user's history

`submissions_for_user` lists by descending id, and an id starts with the millisecond in which it was minted.

* `generate` : an id from the clock and 80 random bits;
* `created` : the submissions a run created for a user, in order; they are the rows of the user (`created_after`);
* `NewestFirst` : the listing is the newest of these, newest first;
* `newestFirst_iff` : it is so exactly when ids of one millisecond were drawn in increasing order;
* `not_newestFirst_tickRun` : a run in which they were not.
-/

namespace Satunera.Store

open Satunera.Base Satunera.Contracts

variable {F : TextForms}

/-! ## Ids -/

/-- `Ulid::new()`: the millisecond above fresh random bits. -/
def generate (millis : BitVec 48) (random : BitVec 80) : Ulid := millis ++ random

namespace SubmissionId

/-- The millisecond in which the id was minted. -/
def millis (id : SubmissionId) : Nat := id.ulid.toNat / 2 ^ 80

/-- The random bits of the id. -/
def random (id : SubmissionId) : Nat := id.ulid.toNat % 2 ^ 80

theorem toNat_generate (millis : BitVec 48) (random : BitVec 80) :
    (generate millis random).toNat = millis.toNat * 2 ^ 80 + random.toNat := by
  rw [generate, BitVec.toNat_append, ← Nat.shiftLeft_add_eq_or_of_lt random.isLt, Nat.shiftLeft_eq]

theorem millis_generate (millis : BitVec 48) (random : BitVec 80) :
    SubmissionId.millis ⟨generate millis random⟩ = millis.toNat := by
  have hlt := random.isLt
  rw [SubmissionId.millis, toNat_generate]
  omega

theorem random_generate (millis : BitVec 48) (random : BitVec 80) :
    SubmissionId.random ⟨generate millis random⟩ = random.toNat := by
  have hlt := random.isLt
  rw [SubmissionId.random, toNat_generate]
  omega

/-- The later millisecond is greater; within one, the random bits decide. -/
theorem lt_iff {a b : SubmissionId} :
    a.ulid < b.ulid ↔ a.millis < b.millis ∨ a.millis = b.millis ∧ a.random < b.random := by
  rw [BitVec.lt_def]
  unfold millis random
  omega

end SubmissionId

/-! ## What a user has created -/

/-- The id a call creates for a user. -/
def Call.created? (userId : UserId) : Call F → Option SubmissionId
  | .createSubmission id _ submission => if submission.userId = userId then some id else none
  | _ => none

/-- The submissions a log creates for a user, in order. -/
def created (userId : UserId) (log : List (Call F)) : List SubmissionId := log.filterMap (Call.created? userId)

/-- The rows of a user. -/
def userRows (F : TextForms) (userId : UserId) (db : Db) : List SubmissionRecord :=
  db.submissions.rows.filter fun r => r.userId = F.ulid userId.ulid

/-- Rewriting a row changes neither the ids of a user's rows nor their order. -/
theorem map_id_filter_modify (user : String) {t : Table SubmissionRecord SubmissionRecord.id} {k : String}
    (f : SubmissionRecord → SubmissionRecord) (hf : ∀ r, r.id = k → (f r).id = k)
    (huser : ∀ r, (f r).userId = r.userId) :
    ((t.modify k f hf).rows.filter fun r => r.userId = user).map SubmissionRecord.id =
      (t.rows.filter fun r => r.userId = user).map SubmissionRecord.id := by
  have hrow : ∀ r : SubmissionRecord, (if r.id = k then f r else r).userId = r.userId ∧
      (if r.id = k then f r else r).id = r.id := by
    intro r
    split
    · rename_i hk
      exact ⟨huser r, (hf r hk).trans hk.symm⟩
    · exact ⟨rfl, rfl⟩
  rw [Table.modify, List.filter_map, List.map_map]
  have hp : (fun r : SubmissionRecord => decide (r.userId = user)) ∘ (fun r => if r.id = k then f r else r) =
      fun r => decide (r.userId = user) := by
    funext r
    simp only [Function.comp_apply, (hrow r).1]
  rw [hp]
  exact List.map_congr_left fun r _ => (hrow r).2

theorem created_change {userId : UserId} {db db' : Db} {log : List (Call F)} {c : Call F}
    (h : (userRows F userId db).map SubmissionRecord.id = (created userId log).map fun id => F.ulid id.ulid)
    (hc : Change db c db') :
    (userRows F userId db').map SubmissionRecord.id =
      (created userId (log ++ [c])).map fun id => F.ulid id.ulid := by
  have hlog : created userId (log ++ [c]) = created userId log ++ (c.created? userId).toList := filterMap_concat _ log c
  rw [hlog, List.map_append, ← h]
  cases hc with
  | createUser | replaceProblems | recordRun => exact (List.append_nil _).symm
  | @createSubmission id now submission submissions hins =>
    rw [userRows, Table.rows_insert? hins, List.filter_append, List.map_append, userRows]
    congr 1
    by_cases hu : submission.userId = userId
    · have hrow : (queuedRecord id now submission).userId = F.ulid userId.ulid := by rw [← hu]; rfl
      simp only [List.filter_cons, List.filter_nil, hrow, decide_true, if_true, Call.created?, if_pos hu]
      rfl
    · have hrow : (queuedRecord id now submission).userId ≠ F.ulid userId.ulid := fun h => hu (UserId.eq_of_ulid h)
      simp only [List.filter_cons, List.filter_nil, hrow, decide_false, Bool.false_eq_true, if_false, Call.created?,
        if_neg hu]
      rfl
  | @setSubmissionStatus now id status row =>
    refine Eq.trans ?_ (List.append_nil _).symm
    exact map_id_filter_modify _ (.withStatus status.asStr (row.startedAt.getD now.text)) (fun _ h => h) fun _ => rfl
  | @finishSubmission now id verdict =>
    refine Eq.trans ?_ (List.append_nil _).symm
    exact map_id_filter_modify _ (.withVerdict verdict.asStr now.text) (fun _ h => h) fun _ => rfl

/-- The rows of a user are the submissions created for it, in order. -/
theorem created_after (steps : List (Step F)) (userId : UserId) :
    (userRows F userId (after Db.empty steps)).map SubmissionRecord.id =
      (created userId (committed Db.empty steps)).map fun id => F.ulid id.ulid :=
  committed_invariant (P := fun db log =>
    (userRows F userId db).map SubmissionRecord.id = (created userId log).map fun id => F.ulid id.ulid)
    rfl created_change steps

/-! ## The listing -/

/-- `submissions_for_user` returns the `limit` newest submissions of the user, newest first, and no others. -/
def NewestFirst (F : TextForms) (steps : List (Step F)) (userId : UserId) (limit : UInt32) : Prop :=
  ∃ subs, submissionsForUser F userId limit (after Db.empty steps) = .ok subs ∧
    subs.map Submission.id = (created userId (committed Db.empty steps)).reverse.take limit.toNat ∧
    ∀ s ∈ subs, s.userId = userId

/-- The listing, and its ids. -/
theorem submissionsForUser_eq {db : Db} (hw : db.Written F) (userId : UserId) (limit : UInt32) :
    ∃ subs, submissionsForUser F userId limit db = .ok subs ∧ (∀ s ∈ subs, s.userId = userId) ∧
      subs.map (fun s => F.ulid s.id.ulid) =
        (((userRows F userId db).map SubmissionRecord.id).insertionSort fun a b => b ≤ a).take limit.toNat := by
  have hmem : ∀ r ∈ ((userRows F userId db).insertionSort fun a b => b.id ≤ a.id).take limit.toNat,
      r ∈ db.submissions.rows ∧ r.userId = F.ulid userId.ulid := by
    intro r hr
    have := List.mem_filter.mp ((List.mem_insertionSort _).mp (List.mem_of_mem_take hr))
    exact ⟨this.1, of_decide_eq_true this.2⟩
  obtain ⟨subs, hsubs, hall⟩ := hw.mapM_eq fun r hr => (hmem r hr).1
  refine ⟨subs, hsubs, fun s hs => ?_, ?_⟩
  · obtain ⟨r, hr, he⟩ := exists_of_mem_right hall hs
    exact UserId.eq_of_ulid (he.userId.symm.trans (hmem r hr).2)
  · have hids :
        (((userRows F userId db).insertionSort fun a b => b.id ≤ a.id).take limit.toNat).map SubmissionRecord.id =
          subs.map fun s => F.ulid s.id.ulid := by
      rw [← List.forall₂_eq_eq_eq, List.forall₂_map_left_iff, List.forall₂_map_right_iff]
      exact hall.imp fun r s he => he.id
    rw [← hids, List.map_take,
      List.map_insertionSort (fun a b : SubmissionRecord => b.id ≤ a.id) (fun a b : String => b ≤ a)
        SubmissionRecord.id _ fun _ _ _ _ => Iff.rfl]

theorem newestFirst_iff_lt (F : TextForms) (steps : List (Step F)) (userId : UserId) (limit : UInt32)
    {ids : List SubmissionId} (hids : ids = created userId (committed Db.empty steps)) :
    NewestFirst F steps userId limit ↔
      ∀ i j (hi : i < ids.length) (hj : j < ids.length), i < j → ids.length ≤ j + limit.toNat →
        ids[i].ulid < ids[j].ulid := by
  obtain ⟨subs, hsubs, huser, hlist⟩ := submissionsForUser_eq (written_after steps) userId limit
  have hrows := created_after steps userId
  rw [← hids] at hrows
  have hinj : Function.Injective fun id : SubmissionId => F.ulid id.ulid := fun _ _ => SubmissionId.eq_of_ulid
  have hnodup : (ids.map fun id => F.ulid id.ulid).Nodup := by
    rw [← hrows]
    exact (after Db.empty steps).submissions.nodup.sublist (List.filter_sublist.map _)
  have hfree : TieFree (fun a b : String => b ≤ a) (ids.map fun id => F.ulid id.ulid) :=
    hnodup.imp fun hne ⟨hab, hba⟩ => hne (le_antisymm hba hab)
  have hnewest : NewestFirst F steps userId limit ↔ subs.map Submission.id = ids.reverse.take limit.toNat := by
    rw [NewestFirst, ← hids]
    constructor
    · rintro ⟨subs', hsubs', he, -⟩
      rwa [Except.ok.inj (hsubs.symm.trans hsubs')]
    · exact fun he => ⟨subs, hsubs, he, huser⟩
  rw [hnewest, ← (List.map_injective_iff.mpr hinj).eq_iff, List.map_map, List.map_take, List.map_reverse]
  rw [show (fun id : SubmissionId => F.ulid id.ulid) ∘ Submission.id = fun s : Submission => F.ulid s.id.ulid from rfl,
    hlist, hrows, take_insertionSort_eq_iff hnodup hfree]
  simp only [List.length_map, List.getElem_map, not_le, F.ulid_lt_iff]

/-- The ids were minted under a clock that does not run backwards. -/
def Chronological (ids : List SubmissionId) : Prop := ids.Pairwise fun a b => a.millis ≤ b.millis

/-- Of any two ids minted in one millisecond, the later among the last `k`, the later drew the greater random bits. -/
def TicksIncrease (ids : List SubmissionId) (k : Nat) : Prop :=
  ∀ i j (hi : i < ids.length) (hj : j < ids.length), i < j → ids.length ≤ j + k →
    ids[i].millis = ids[j].millis → ids[i].random < ids[j].random

/-- **A user's history is newest first exactly when ids minted in one millisecond were drawn in increasing order.** -/
theorem newestFirst_iff (F : TextForms) (steps : List (Step F)) (userId : UserId) (limit : UInt32)
    (h : Chronological (created userId (committed Db.empty steps))) :
    NewestFirst F steps userId limit ↔
      TicksIncrease (created userId (committed Db.empty steps)) limit.toNat := by
  rw [newestFirst_iff_lt F steps userId limit rfl]
  have hle := List.pairwise_iff_getElem.mp h
  refine forall₄_congr fun i j hi hj => forall₂_congr fun hij hk => ?_
  rw [SubmissionId.lt_iff]
  have := hle i j hi hj hij
  constructor
  · rintro (hlt | ⟨-, hlt⟩) he
    · omega
    · exact hlt
  · intro himp
    rcases Nat.lt_or_eq_of_le this with hlt | heq
    · exact Or.inl hlt
    · exact Or.inr ⟨heq, himp heq⟩

/-! ## One millisecond -/

/-- Two submissions in one millisecond: the random bits of the first id are 1, those of the second `random`. -/
def tickRun (random : BitVec 80) : List (Step .crockford) :=
  closingRun.take 2 ++
    [⟨.createSubmission ⟨generate 1 1⟩ (secondClock (.last 59))
        ⟨⟨1⟩, ⟨"mempool-fees"⟩, .py, "ab12", "blobs/source/ab/ab12"⟩, none⟩,
      ⟨.createSubmission ⟨generate 1 random⟩ (secondClock (.last 59))
        ⟨⟨1⟩, ⟨"mempool-fees"⟩, .py, "cd34", "blobs/source/cd/cd34"⟩, none⟩]

theorem newestFirst_tickRun : NewestFirst .crockford (tickRun 2) ⟨1⟩ 10 := by
  have hids : created ⟨1⟩ (committed Db.empty (tickRun 2)) = [⟨generate 1 1⟩, ⟨generate 1 2⟩] := rfl
  refine (newestFirst_iff .crockford (tickRun 2) ⟨1⟩ 10 ?_).mpr ?_
  · rw [hids]
    exact List.pairwise_pair.mpr (by decide)
  · rw [hids]
    intro i j hi hj hij _ _
    obtain ⟨rfl, rfl⟩ : i = 0 ∧ j = 1 := by
      simp only [List.length_cons, List.length_nil] at hj
      omega
    show SubmissionId.random ⟨generate 1 1⟩ < SubmissionId.random ⟨generate 1 2⟩
    decide

/-- With smaller bits the second submission is listed as the older one. -/
theorem not_newestFirst_tickRun :
    Chronological (created ⟨1⟩ (committed Db.empty (tickRun 0))) ∧ ¬NewestFirst .crockford (tickRun 0) ⟨1⟩ 10 := by
  have hids : [⟨generate 1 1⟩, ⟨generate 1 0⟩] = created ⟨1⟩ (committed Db.empty (tickRun 0)) := rfl
  rw [← hids, newestFirst_iff_lt .crockford (tickRun 0) ⟨1⟩ 10 hids]
  refine ⟨List.pairwise_pair.mpr (by decide), fun h => ?_⟩
  exact absurd (h 0 1 (by decide) (by decide) (by decide) (by decide)) (by decide)

end Satunera.Store
