import Satunera.Store.Readback

/-!
# Unique handles, emails and attempts

* `Db.Unique` : no two users share a handle or an email, no two runs a submission and an attempt (`unique_after`);
* `createUser_cases`, `recordRun_cases` : a call that would break this is refused as a conflict, and no other is;
* `recordedRuns` : the runs that were recorded, which `runsForSubmission` lists (`runsForSubmission_after`);
* `Arbitrated` : the same of any interleaving, where of all calls that claim one attempt exactly one succeeds;
* `uniqueness_enforced` : all of it.
-/

namespace Satunera.Store

open Satunera.Base Satunera.Contracts

variable {F : TextForms}

/-! ## The constraints -/

/-- The `UNIQUE` constraints of the migration. -/
structure Db.Unique (db : Db) : Prop where
  handles : (db.users.rows.map UserRecord.handle).Nodup
  emails : (db.users.rows.map UserRecord.email).Nodup
  attempts : (db.runs.rows.map fun r => (r.submissionId, r.attempt)).Nodup

/-- The call is refused as a conflict. -/
def Conflicts (r : Except StoreError Reply) : Prop := ∃ entity detail, r = .error (.conflict entity detail)

theorem not_conflicts_ok (a : Reply) : ¬Conflicts (.ok a) := by
  rintro ⟨entity, detail, h⟩
  cases h

section Calls
variable (now : Clock F) (db : Db)

/-- A `createUser` that the engine does not fail. -/
theorem createUser_cases (id : UserId) (user : NewUser) :
    ((db.HasUser user.handle user.email ∨ (db.users.find? (F.ulid id.ulid)).isSome) ∧
        (Step.mk (.createUser id now user) none).run db = (.error (userConflict F user), db)) ∨
      ∃ users, db.users.insert? (userRecord id now user) = some users ∧ ¬db.HasUser user.handle user.email ∧
        (Step.mk (.createUser id now user) none).run db =
          (.ok (.user (createdUser id now user)), { db with users }) := by
  rcases createUser_run id now user db with ⟨htaken, h⟩ | ⟨users, hins, hnew, h⟩
  · exact Or.inl ⟨htaken, step_of_run_error (by simp only [Call.prog, Prog.run_bind, h]; rfl)⟩
  · exact Or.inr ⟨users, hins, hnew, step_of_run (by simp only [Call.prog, Prog.run_bind, h]; rfl)⟩

/-- A `recordRun` that the engine does not fail. -/
theorem recordRun_cases (id : RunId) (run : NewRun) :
    ((db.HasAttempt (F.ulid run.submissionId.ulid) run.attempt.toNat ∨ (db.runs.find? (F.ulid id.ulid)).isSome) ∧
        (Step.mk (.recordRun id now run) none).run db = (.error (runConflict F run), db)) ∨
      (db.submissions.find? (F.ulid run.submissionId.ulid) = none ∧
        (Step.mk (.recordRun id now run) none).run db = (.error (.database .foreignKey), db)) ∨
      ∃ runs, db.runs.insert? (runRecord id now run) = some runs ∧
        ¬db.HasAttempt (F.ulid run.submissionId.ulid) run.attempt.toNat ∧
        (Step.mk (.recordRun id now run) none).run db = (.ok (.run (recordedRun id now run)), { db with runs }) := by
  rcases recordRun_run id now run db with ⟨htaken, h⟩ | ⟨hs, h⟩ | ⟨runs, hins, hnew, -, h⟩
  · exact Or.inl ⟨htaken, step_of_run_error (by simp only [Call.prog, Prog.run_bind, h]; rfl)⟩
  · exact Or.inr (Or.inl ⟨hs, step_of_run_error (by simp only [Call.prog, Prog.run_bind, h]; rfl)⟩)
  · exact Or.inr (Or.inr ⟨runs, hins, hnew, step_of_run (by simp only [Call.prog, Prog.run_bind, h]; rfl)⟩)

/-- A `createUser` with a new id is refused exactly when the handle or the email is taken. -/
theorem createUser_conflicts_iff {id : UserId} {user : NewUser} (hid : db.users.find? (F.ulid id.ulid) = none) :
    Conflicts ((Step.mk (.createUser id now user) none).run db).1 ↔ db.HasUser user.handle user.email := by
  rcases createUser_cases now db id user with ⟨htaken, h⟩ | ⟨users, -, hnew, h⟩
  · rw [hid] at htaken
    rw [h]
    exact ⟨fun _ => htaken.resolve_right nofun, fun _ => ⟨_, _, rfl⟩⟩
  · rw [h]
    exact iff_of_false (not_conflicts_ok _) hnew

/-- A `recordRun` with a new id, for a submission that is there, is refused exactly when the attempt is recorded. -/
theorem recordRun_conflicts_iff {id : RunId} {run : NewRun} (hid : db.runs.find? (F.ulid id.ulid) = none)
    (hs : (db.submissions.find? (F.ulid run.submissionId.ulid)).isSome) :
    Conflicts ((Step.mk (.recordRun id now run) none).run db).1 ↔
      db.HasAttempt (F.ulid run.submissionId.ulid) run.attempt.toNat := by
  rcases recordRun_cases now db id run with ⟨htaken, h⟩ | ⟨hnone, -⟩ | ⟨runs, -, hnew, h⟩
  · rw [hid] at htaken
    rw [h]
    exact ⟨fun _ => htaken.resolve_right nofun, fun _ => ⟨_, _, rfl⟩⟩
  · rw [hnone] at hs
    cases hs
  · rw [h]
    exact iff_of_false (not_conflicts_ok _) hnew

end Calls

/-- A `recordRun` that returns has found its attempt free. -/
theorem not_hasAttempt_of_step {st : Step F} {db db' : Db} {r : Reply} {id : RunId} {now : Clock F} {run : NewRun}
    (h : st.run db = (.ok r, db')) (hcall : st.call = .recordRun id now run) :
    ¬db.HasAttempt (F.ulid run.submissionId.ulid) run.attempt.toNat := by
  have hstep := step_of_run (run_of_step h)
  rw [hcall] at hstep
  rcases recordRun_cases now db id run with ⟨-, he⟩ | ⟨-, he⟩ | ⟨runs, -, hnew, -⟩
  · rw [hstep] at he
    cases congrArg Prod.fst he
  · rw [hstep] at he
    cases congrArg Prod.fst he
  · exact hnew

/-! ## They hold after every run -/

theorem unique_empty : Db.empty.Unique := ⟨List.nodup_nil, List.nodup_nil, List.nodup_nil⟩

theorem unique_step {db : Db} (h : db.Unique) (st : Step F) : (st.run db).2.Unique := by
  rcases step_outcome st db with ⟨e, he⟩ | ⟨r, db', hr, -, ho⟩
  · rw [he]
    exact h
  · obtain ⟨call, fault⟩ := st
    have hfree : ∀ id now run, call = .recordRun id now run →
        ¬db.HasAttempt (F.ulid run.submissionId.ulid) run.attempt.toNat := fun _ _ _ => not_hasAttempt_of_step hr
    rw [hr]
    cases ho with
    | createUser hins hfresh =>
      exact { h with
        handles := Table.nodup_map_insert? hins h.handles fun x hx => (hfresh x hx).1
        emails := Table.nodup_map_insert? hins h.emails fun x hx => (hfresh x hx).2 }
    | @recordRun id now run runs hins hs =>
      refine { h with attempts := Table.nodup_map_insert? hins h.attempts fun x hx he => ?_ }
      obtain ⟨hsub, hattempt⟩ := Prod.mk.inj he
      exact hfree id now run rfl ⟨x, hx, hsub, hattempt⟩
    | replaceProblems hc | setSubmissionStatus hc | finishSubmission hc =>
      cases hc
      exact { h with }
    | createSubmission => exact { h with }

theorem unique_after (steps : List (Step F)) : (after Db.empty steps).Unique := by
  induction steps using List.reverseRecOn with
  | nil => exact unique_empty
  | append_singleton steps st ih =>
    rw [after_concat]
    exact unique_step ih st

/-! ## The recorded runs -/

/-- A step leaves the runs as they are, or it is a `recordRun` that returned and added its row. -/
theorem runs_step (st : Step F) (db : Db) :
    ((st.run db).2.runs.rows = db.runs.rows ∧ ∀ run, (st.run db).1 ≠ .ok (.run run)) ∨
      ∃ id now run, st.call = .recordRun id now run ∧ (st.run db).1 = .ok (.run (recordedRun id now run)) ∧
        (st.run db).2.runs.rows = db.runs.rows ++ [runRecord id now run] := by
  rcases step_outcome st db with ⟨e, he⟩ | ⟨r, db', hr, -, ho⟩
  · rw [he]
    exact Or.inl ⟨rfl, fun run h => by cases h⟩
  · obtain ⟨call, fault⟩ := st
    rw [hr]
    cases ho with
    | @recordRun id now run runs hins hs => exact Or.inr ⟨id, now, run, rfl, rfl, Table.rows_insert? hins⟩
    | replaceProblems hc | setSubmissionStatus hc | finishSubmission hc =>
      cases hc
      exact Or.inl ⟨rfl, fun run h => by cases h⟩
    | createUser | createSubmission => exact Or.inl ⟨rfl, fun run h => by cases h⟩

/-- The run a step returned, if it recorded one. -/
def Step.recorded (st : Step F) (db : Db) : Option Run :=
  match (st.run db).1 with
  | .ok (.run run) => some run
  | _ => none

/-- The runs that the `recordRun`s among the steps returned, in order. -/
def recordedRuns (db : Db) : List (Step F) → List Run
  | [] => []
  | st :: steps => (st.recorded db).toList ++ recordedRuns (st.run db).2 steps

theorem Step.recorded_eq_some_iff {st : Step F} {db : Db} {run : Run} :
    st.recorded db = some run ↔ (st.run db).1 = .ok (.run run) := by
  unfold recorded
  split
  · rename_i run' h
    rw [h, Option.some.injEq, Except.ok.injEq, Reply.run.injEq]
  · rename_i h
    exact iff_of_false nofun (h run)

theorem recordedRuns_append (db : Db) (steps steps' : List (Step F)) :
    recordedRuns db (steps ++ steps') = recordedRuns db steps ++ recordedRuns (after db steps) steps' := by
  induction steps generalizing db with
  | nil => rfl
  | cons st steps ih => simp [recordedRuns, ih]

theorem recordedRuns_concat (db : Db) (steps : List (Step F)) (st : Step F) :
    recordedRuns db (steps ++ [st]) = recordedRuns db steps ++ (st.recorded (after db steps)).toList := by
  rw [recordedRuns_append, recordedRuns, recordedRuns, List.append_nil]

theorem mem_recordedRuns_iff {db : Db} {steps : List (Step F)} {run : Run} :
    run ∈ recordedRuns db steps ↔
      ∃ pre st post, steps = pre ++ st :: post ∧ (st.run (after db pre)).1 = .ok (.run run) := by
  constructor
  · intro h
    induction steps using List.reverseRecOn with
    | nil => cases h
    | append_singleton steps st ih =>
      rw [recordedRuns_concat, List.mem_append, Option.mem_toList] at h
      rcases h with h | h
      · obtain ⟨pre, st', post, rfl, hrun⟩ := ih h
        exact ⟨pre, st', post ++ [st], by simp, hrun⟩
      · exact ⟨steps, st, [], rfl, Step.recorded_eq_some_iff.mp h⟩
  · rintro ⟨pre, st, post, rfl, h⟩
    rw [recordedRuns_append, List.mem_append, recordedRuns, List.mem_append, Step.recorded_eq_some_iff.mpr h]
    exact Or.inr (Or.inl (List.mem_singleton_self run))

/-- The table of runs holds the recorded runs. -/
theorem encodes_recordedRuns (steps : List (Step F)) :
    List.Forall₂ (RunRecord.Encodes F) (after Db.empty steps).runs.rows (recordedRuns Db.empty steps) := by
  induction steps using List.reverseRecOn with
  | nil => exact .nil
  | append_singleton steps st ih =>
    rw [after_concat, recordedRuns_concat]
    rcases runs_step st (after Db.empty steps) with ⟨hrows, hnone⟩ | ⟨id, now, run, -, hok, hrows⟩
    · have hrecorded : st.recorded (after Db.empty steps) = none :=
        Option.eq_none_iff_forall_ne_some.mpr fun run h => hnone run (Step.recorded_eq_some_iff.mp h)
      rw [hrows, hrecorded]
      simpa using ih
    · rw [hrows, Step.recorded_eq_some_iff.mpr hok]
      exact List.rel_append ih (.cons (encodes_runRecord id now run) .nil)

/-- No two runs of a submission are the same attempt. -/
theorem Db.Unique.nodup_attempts {db : Db} (h : db.Unique) (submissionId : String) :
    ((db.runs.rows.filter fun r => r.submissionId = submissionId).map RunRecord.attempt).Nodup := by
  have hpairs : (db.runs.rows.filter fun r => r.submissionId = submissionId).Pairwise fun a b =>
      (a.submissionId, a.attempt) ≠ (b.submissionId, b.attempt) :=
    List.pairwise_map.mp (h.attempts.sublist (List.filter_sublist.map _))
  refine List.pairwise_map.mpr (hpairs.imp_of_mem fun {a b} ha hb hne he => hne ?_)
  have ha : a.submissionId = submissionId := by simpa using (List.mem_filter.mp ha).2
  have hb : b.submissionId = submissionId := by simpa using (List.mem_filter.mp hb).2
  rw [ha, hb, he]

/-- **`runsForSubmission` lists the recorded runs of the submission, each once and by attempt.** -/
theorem runsForSubmission_after (steps : List (Step F)) (id : SubmissionId) :
    ∃ runs, runsForSubmission F id (after Db.empty steps) = .ok runs ∧
      runs.Perm ((recordedRuns Db.empty steps).filter fun run => run.submissionId = id) ∧
      runs.Pairwise fun a b => a.attempt < b.attempt := by
  obtain ⟨runs, hruns, hsorted, hperm⟩ := runsForSubmission_of_forall₂ (encodes_recordedRuns steps) id
  refine ⟨runs, hruns, hperm, ?_⟩
  have hlt := pairwise_insertionSort_lt RunRecord.attempt ((unique_after steps).nodup_attempts (F.ulid id.ulid))
  have hattempts := List.forall₂_map_right_iff.mpr
    (List.forall₂_map_left_iff.mpr (hsorted.imp fun _ _ he => he.attempt))
  rw [List.forall₂_eq_eq_eq] at hattempts
  rw [← List.pairwise_map, hattempts, List.pairwise_map] at hlt
  exact hlt.imp fun h => UInt32.lt_iff_toNat_lt.mpr (Int.ofNat_lt.mp h)

/-! ## Claims to one attempt -/

/-- The call claims the attempt `attempt` of submission `id`. -/
def Call.Claims (c : Call F) (id : SubmissionId) (attempt : UInt32) : Prop :=
  ∃ runId now run, c = .recordRun runId now run ∧ run.submissionId = id ∧ run.attempt = attempt

theorem Db.HasAttempt.step {db : Db} {submissionId : String} {attempt : Int} (h : db.HasAttempt submissionId attempt)
    (st : Step F) : (st.run db).2.HasAttempt submissionId attempt := by
  obtain ⟨r, hr, hkey⟩ := h
  rcases runs_step st db with ⟨hrows, -⟩ | ⟨id, now, run, -, -, hrows⟩
  · exact ⟨r, hrows ▸ hr, hkey⟩
  · exact ⟨r, hrows ▸ List.mem_append_left _ hr, hkey⟩

/-- A step that makes the attempt recorded is a claim that returned. -/
theorem claims_of_hasAttempt_step {db : Db} {st : Step F} {id : SubmissionId} {attempt : UInt32}
    (hnot : ¬db.HasAttempt (F.ulid id.ulid) attempt.toNat)
    (h : (st.run db).2.HasAttempt (F.ulid id.ulid) attempt.toNat) :
    st.call.Claims id attempt ∧ ∃ a, (st.run db).1 = .ok a := by
  obtain ⟨r, hr, hsub, hattempt⟩ := h
  rcases runs_step st db with ⟨hrows, -⟩ | ⟨runId, now, run, hcall, hok, hrows⟩
  · exact absurd ⟨r, hrows ▸ hr, hsub, hattempt⟩ hnot
  · rw [hrows, List.mem_append, List.mem_singleton] at hr
    rcases hr with hr | rfl
    · exact absurd ⟨r, hr, hsub, hattempt⟩ hnot
    · have hattempt := UInt32.toNat_inj.mp (Int.ofNat.inj hattempt)
      exact ⟨⟨runId, now, run, hcall, SubmissionId.eq_of_ulid hsub, hattempt⟩, _, hok⟩

theorem Outcome.hasAttempt {db db' : Db} {id : RunId} {now : Clock F} {run : NewRun} {r : Reply}
    (h : Outcome db (.recordRun id now run) r db') :
    db'.HasAttempt (F.ulid run.submissionId.ulid) run.attempt.toNat := by
  cases h with
  | recordRun hins hs => exact ⟨_, (Table.mem_insert? hins).mpr (Or.inr rfl), rfl, rfl⟩

section Interleavings
variable {ι : Type}

/-- An attempt of a submission is a slot that the `recordRun`s with it claim. -/
theorem attempt_slot (calls : ι → Step F) (id : SubmissionId) (attempt : UInt32) :
    Slot exec (fun i => (calls i).prog) (fun db => db.HasAttempt (F.ulid id.ulid) attempt.toNat)
      (fun i => (calls i).call.Claims id attempt) Succeeds where
  stays i db h := h.step (calls i)
  loses i db := by
    rintro ⟨runId, now, run, hcall, rfl, rfl⟩ htaken hwins
    obtain ⟨a, ha⟩ := succeeds_iff.mp hwins
    exact not_hasAttempt_of_step (Prod.ext ha rfl) hcall htaken
  takes i db := by
    rintro ⟨runId, now, run, hcall, rfl, rfl⟩ hwins
    obtain ⟨a, ha⟩ := succeeds_iff.mp hwins
    have ho := outcome_of_step (Prod.ext ha rfl : (calls i).run db = (.ok a, ((calls i).run db).2))
    rw [hcall] at ho
    exact ho.hasAttempt

/-- The ids of the `recordRun`s are new: not in the tables, and no two the same. -/
structure FreshRuns (calls : ι → Step F) (db : Db) : Prop where
  new : ∀ i id now run, (calls i).call = .recordRun id now run → db.runs.find? (F.ulid id.ulid) = none
  distinct : ∀ i j id now run now' run', (calls i).call = .recordRun id now run →
    (calls j).call = .recordRun id now' run' → i = j

/-- The call returned `Ok`. -/
def Succeeded (c : Calls ι) (i : ι) : Prop := ∃ r, c.calls i = .done r ∧ Succeeds r

/-- The call got the lock, the engine did not fail it, and it has ended. -/
def Served (calls : ι → Step F) (c : Calls ι) (i : ι) : Prop :=
  (calls i).fault = none ∧ i ∈ c.order ∧ ∃ r, c.calls i = .done r

/-- What the store enforces on tables `db`, whatever call comes next. -/
structure Enforced (F : TextForms) (db : Db) : Prop where
  unique : db.Unique
  /-- A `createUser` with a new id is refused exactly when its handle or its email is taken. -/
  createUser : ∀ id (now : Clock F) user, db.users.find? (F.ulid id.ulid) = none →
    (Conflicts ((Step.mk (.createUser id now user) none).run db).1 ↔ db.HasUser user.handle user.email)
  /-- A `recordRun` with a new id, for a submission that is there, exactly when its attempt is recorded. -/
  recordRun : ∀ id (now : Clock F) run, db.runs.find? (F.ulid id.ulid) = none →
    (db.submissions.find? (F.ulid run.submissionId.ulid)).isSome →
    (Conflicts ((Step.mk (.recordRun id now run) none).run db).1 ↔
      db.HasAttempt (F.ulid run.submissionId.ulid) run.attempt.toNat)
  /-- A call that returns an error changes nothing. -/
  unchanged : ∀ (st : Step F) e, (st.run db).1 = .error e → (st.run db).2 = db

/-- What holds of the calls `calls`, started after the run `steps`, at a moment `c` of an interleaving. -/
structure Arbitrated (steps : List (Step F)) (calls : ι → Step F) (c : Calls ι) : Prop where
  /-- The tables are those of the calls that gave the lock back, one after another. -/
  tables : ∃ ended, ended <+: c.order ∧ c.tables = after Db.empty (steps ++ ended.map calls)
  /-- A call that had the lock returns what it returns on the tables it found, which are reached by such a run too. -/
  result : ∀ pre i post r, c.order = pre ++ i :: post → c.calls i = .done r →
    reply r = ((calls i).run (after Db.empty (steps ++ pre.map calls))).1
  /-- Of the calls that claim one attempt at most one succeeds, and none if it was recorded before. -/
  at_most_one : ∀ id attempt i, (calls i).call.Claims id attempt → Succeeded c i →
    ¬(after Db.empty steps).HasAttempt (F.ulid id.ulid) attempt.toNat ∧
      ∀ j, (calls j).call.Claims id attempt → Succeeded c j → i = j
  /-- Exactly one succeeds, and the others conflict, as soon as one of them is served. -/
  exactly_one : ∀ id attempt, ((after Db.empty steps).submissions.find? (F.ulid id.ulid)).isSome →
    ¬(after Db.empty steps).HasAttempt (F.ulid id.ulid) attempt.toNat → FreshRuns calls (after Db.empty steps) →
    (∃ i, (calls i).call.Claims id attempt ∧ Served calls c i) →
    ∃ w, ((calls w).call.Claims id attempt ∧ Succeeded c w) ∧ ∀ i, (calls i).call.Claims id attempt → i ≠ w →
      ¬Succeeded c i ∧ (Served calls c i → ∃ r, c.calls i = .done r ∧ Conflicts (reply r))
  /-- `runsForSubmission` returns the runs recorded before and by these calls, each once and by attempt. -/
  runs : ∀ id, ∃ runs, runsForSubmission F id c.tables = .ok runs ∧
    (∀ run, run ∈ runs ↔ run.submissionId = id ∧
      (run ∈ recordedRuns Db.empty steps ∨ ∃ i, c.calls i = .done (.ok (.ok (.run run))))) ∧
    runs.Pairwise fun a b => a.attempt < b.attempt

/-! ## Every reachable moment -/

theorem Change.submission_kept {db db' : Db} {c : Call F} (hc : Change db c db') {k : String}
    (h : (db.submissions.find? k).isSome) : (db'.submissions.find? k).isSome := by
  obtain ⟨r, hr⟩ := Option.isSome_iff_exists.mp h
  obtain rfl := Table.key_of_find? hr
  rcases hc.row (Table.mem_of_find? hr) with hr' | ⟨⟨r', hr', hsame⟩, -⟩
  · exact Option.isSome_iff_exists.mpr ⟨r, Table.find?_of_mem hr'⟩
  · exact Option.isSome_iff_exists.mpr ⟨r', hsame.id ▸ Table.find?_of_mem hr'⟩

/-- A run was there, or a `recordRun` among the steps has added it. -/
theorem mem_runs_after {db : Db} {steps : List (Step F)} {r : RunRecord} (h : r ∈ (after db steps).runs.rows) :
    r ∈ db.runs.rows ∨ ∃ st ∈ steps, ∃ id now run, st.call = .recordRun id now run ∧ r = runRecord id now run := by
  induction steps using List.reverseRecOn with
  | nil => exact Or.inl h
  | append_singleton steps st ih =>
    have hold : r ∈ (after db steps).runs.rows → r ∈ db.runs.rows ∨
        ∃ st' ∈ steps ++ [st], ∃ id now run, st'.call = .recordRun id now run ∧ r = runRecord id now run := fun hr =>
      (ih hr).imp_right fun ⟨st', hst', hrun⟩ => ⟨st', List.mem_append_left _ hst', hrun⟩
    rw [after_concat] at h
    rcases runs_step st (after db steps) with ⟨hrows, -⟩ | ⟨id, now, run, hcall, -, hrows⟩
    · exact hold (hrows ▸ h)
    · rw [hrows, List.mem_append, List.mem_singleton] at h
      exact h.elim hold fun hr => Or.inr ⟨st, by simp, id, now, run, hcall, hr⟩

/-- The id of a call that comes after `pre` is still new. -/
theorem FreshRuns.find?_eq_none {calls : ι → Step F} {db : Db} (h : FreshRuns calls db) {pre : List ι} {i : ι}
    (hi : i ∉ pre) {id : RunId} {now : Clock F} {run : NewRun} (hcall : (calls i).call = .recordRun id now run) :
    (after db (pre.map calls)).runs.find? (F.ulid id.ulid) = none := by
  rw [Table.find?_eq_none_iff]
  intro r hr hid
  rcases mem_runs_after hr with hr | ⟨st, hst, id', now', run', hcall', rfl⟩
  · exact Table.find?_eq_none_iff.mp (h.new i id now run hcall) r hr hid
  · obtain ⟨j, hj, rfl⟩ := List.mem_map.mp hst
    obtain rfl : id' = id := RunId.eq_of_ulid hid
    exact hi (h.distinct i j id' now run now' run' hcall hcall' ▸ hj)

theorem enforced_after (steps : List (Step F)) : Enforced F (after Db.empty steps) where
  unique := unique_after steps
  createUser _ now _ hid := createUser_conflicts_iff now _ hid
  recordRun _ now _ hid hs := recordRun_conflicts_iff now _ hid hs
  unchanged _ _ h := step_error (Prod.ext h rfl)

section Reached
variable [DecidableEq ι] {steps : List (Step F)} {calls : ι → Step F} {c : Calls ι}
  (h : Reaches exec (fun i => (calls i).prog) busy (Config.start (after Db.empty steps)) c)
include h

/-- A claim that is served succeeds, or it conflicts and the attempt is recorded. -/
theorem served_cases {id : SubmissionId} {attempt : UInt32}
    (hsub : ((after Db.empty steps).submissions.find? (F.ulid id.ulid)).isSome)
    (hfresh : FreshRuns calls (after Db.empty steps)) {i : ι} (hi : (calls i).call.Claims id attempt)
    (hs : Served calls c i) : Succeeded c i ∨
      (∃ r, c.calls i = .done r ∧ Conflicts (reply r)) ∧ c.tables.HasAttempt (F.ulid id.ulid) attempt.toNat := by
  obtain ⟨runId, now, run, hcall, rfl, rfl⟩ := hi
  obtain ⟨hfault, ho, r, hr⟩ := hs
  obtain ⟨ended, ⟨later, hprefix⟩, htables, hended, hmem⟩ := exists_ended h
  obtain ⟨pre, post, rfl⟩ := List.append_of_mem (hmem i ho r hr)
  have hpre : i ∉ pre := by
    have hn := (consistent_of_reaches h).nodup
    rw [← hprefix] at hn
    intro hi
    exact (List.nodup_append.mp (List.nodup_append.mp hn).1).2.2 i hi i (List.mem_cons_self ..) rfl
  have hreply := reply_eq_run h pre i (post ++ later) r (by rw [← hprefix]; simp) hr
  have hstep : calls i = ⟨.recordRun runId now run, none⟩ := by rw [← hcall, ← hfault]
  have hnew := hfresh.find?_eq_none hpre hcall
  have hkept :
      ((after (after Db.empty steps) (pre.map calls)).submissions.find? (F.ulid run.submissionId.ulid)).isSome :=
    after_invariant (P := fun db => (db.submissions.find? _).isSome) (fun hs hc => hc.submission_kept hs) hsub _
  rw [hstep] at hreply
  rcases recordRun_cases now (after (after Db.empty steps) (pre.map calls)) runId run with
    ⟨htaken, he⟩ | ⟨hnone, -⟩ | ⟨runs, -, -, he⟩
  · rw [he] at hreply
    rw [hnew] at htaken
    have hslot := attempt_slot calls run.submissionId run.attempt
    rw [← serial_eq_after] at htaken
    refine Or.inr ⟨⟨r, hr, _, _, hreply⟩, ?_⟩
    rw [htables, serial_append]
    exact hslot.stays_serial _ (htaken.resolve_right nofun)
  · rw [hnone] at hkept
    cases hkept
  · rw [he] at hreply
    exact Or.inl ⟨r, hr, _, reply_eq_ok_iff.mp hreply⟩

/-- **Of the claims to a free attempt exactly one succeeds, as soon as one is served.** -/
theorem exactly_one_succeeds {id : SubmissionId} {attempt : UInt32}
    (hsub : ((after Db.empty steps).submissions.find? (F.ulid id.ulid)).isSome)
    (hfree : ¬(after Db.empty steps).HasAttempt (F.ulid id.ulid) attempt.toNat)
    (hfresh : FreshRuns calls (after Db.empty steps))
    (hserved : ∃ i, (calls i).call.Claims id attempt ∧ Served calls c i) :
    ∃ w, ((calls w).call.Claims id attempt ∧ Succeeded c w) ∧ ∀ i, (calls i).call.Claims id attempt → i ≠ w →
      ¬Succeeded c i ∧ (Served calls c i → ∃ r, c.calls i = .done r ∧ Conflicts (reply r)) := by
  have hslot := attempt_slot calls id attempt
  have hwinner : ∃ w, (calls w).call.Claims id attempt ∧ Succeeded c w := by
    obtain ⟨i, hi, hs⟩ := hserved
    rcases served_cases h hsub hfresh hi hs with hok | ⟨-, htaken⟩
    · exact ⟨i, hi, hok⟩
    · have hmakes : ∀ i (db : Db), ¬db.HasAttempt (F.ulid id.ulid) attempt.toNat →
          ((calls i).run db).2.HasAttempt (F.ulid id.ulid) attempt.toNat →
          (calls i).call.Claims id attempt ∧ Succeeds (atomically exec (calls i).prog db).1 := by
        intro i db hnot hhas
        obtain ⟨hclaim, hok⟩ := claims_of_hasAttempt_step hnot hhas
        exact ⟨hclaim, succeeds_iff.mpr hok⟩
      exact exists_winner h hmakes hfree htaken
  obtain ⟨w, hw, hok⟩ := hwinner
  refine ⟨w, ⟨hw, hok⟩, fun i hi hne => ?_⟩
  have hlost : ¬Succeeded c i := by
    rintro ⟨r, hr, hwins⟩
    obtain ⟨r', hr', hwins'⟩ := hok
    exact hne (winner_unique h hslot not_succeeds_busy hi hw hr hr' hwins hwins')
  exact ⟨hlost, fun hs => ((served_cases h hsub hfresh hi hs).resolve_left hlost).1⟩

/-- What the calls of an interleaving recorded is what those that returned a run returned. -/
theorem mem_recordedRuns_ended {ended : List ι} (hended : EndedSerially exec (fun i => (calls i).prog)
      (after Db.empty steps) c.calls ended)
    (hmem : ∀ i ∈ c.order, ∀ r, c.calls i = .done r → i ∈ ended) {run : Run} :
    run ∈ recordedRuns (after Db.empty steps) (ended.map calls) ↔ ∃ i, c.calls i = .done (.ok (.ok (.run run))) := by
  have hdone : ∀ pre i post, ended = pre ++ i :: post → (c.calls i = .done (.ok (.ok (.run run))) ↔
      ((calls i).run (after (after Db.empty steps) (pre.map calls))).1 = .ok (.run run)) := by
    intro pre i post hsplit
    rw [hended pre i post hsplit, serial_eq_after, CallState.done.injEq, ← reply_eq_ok_iff]
    rfl
  rw [mem_recordedRuns_iff]
  constructor
  · rintro ⟨pre', st, post', hsplit, hrun⟩
    obtain ⟨pre, rest, rfl, rfl, hrest⟩ := List.map_eq_append_iff.mp hsplit
    obtain ⟨i, post, rfl, rfl, rfl⟩ := List.map_eq_cons_iff.mp hrest
    exact ⟨i, (hdone pre i post rfl).mpr hrun⟩
  · rintro ⟨i, hi⟩
    have ho : i ∈ c.order := mem_order_of_done h hi fun he => by cases he
    obtain ⟨pre, post, rfl⟩ := List.append_of_mem (hmem i ho _ hi)
    exact ⟨pre.map calls, calls i, post.map calls, by simp, (hdone pre i post rfl).mp hi⟩

theorem arbitrated_of_reaches : Arbitrated steps calls c := by
  obtain ⟨ended, hprefix, htables, hended, hmem⟩ := exists_ended h
  rw [serial_eq_after, ← after_append] at htables
  refine ⟨⟨ended, hprefix, htables⟩, fun pre i post r ho hr => ?_, fun id attempt i hi ⟨r, hr, hwins⟩ => ⟨?_, ?_⟩,
    fun id attempt hsub hfree hfresh => exactly_one_succeeds h hsub hfree hfresh, fun id => ?_⟩
  · rw [after_append]
    exact reply_eq_run h pre i post r ho hr
  · have hfree := (attempt_slot calls id attempt).free_of_wins h not_succeeds_busy hi hr hwins
    exact hfree
  · rintro j hj ⟨r', hr', hwins'⟩
    exact winner_unique h (attempt_slot calls id attempt) not_succeeds_busy hi hj hr hr' hwins hwins'
  · obtain ⟨runs, hruns, hperm, hlt⟩ := runsForSubmission_after (steps ++ ended.map calls) id
    refine ⟨runs, htables ▸ hruns, fun run => ?_, hlt⟩
    rw [hperm.mem_iff, List.mem_filter, decide_eq_true_eq, recordedRuns_append, List.mem_append,
      mem_recordedRuns_ended h hended hmem, and_comm]

/-- **The store enforces unique handles, emails and attempts, and reports what would break them as a conflict,**
whatever the interleaving of the calls. -/
theorem uniqueness_enforced : Enforced F c.tables ∧ Arbitrated steps calls c := by
  have harb := arbitrated_of_reaches h
  obtain ⟨ended, -, htables⟩ := harb.tables
  exact ⟨htables ▸ enforced_after _, harb⟩

end Reached

end Interleavings

/-- Two runners record the first attempt of the same submission. -/
def twoRecordings (first : Bool) : Step .crockford :=
  ⟨.recordRun ⟨if first then 3 else 4⟩ (secondClock (.last 59))
    ⟨⟨2⟩, 1, "runner", "fixture", some 0, some .ac, none, none, none, none, none⟩, none⟩

/-- The one that gets the lock first wins, the other conflicts. -/
theorem uniqueness_enforced_twoRecordings : ∃ c : Calls Bool, Succeeded c true ∧
    c.calls false = .done (.error (.conflict "runs"
      "attempt 1 for submission 00000000000000000000000002 already recorded")) ∧
    Enforced .crockford c.tables ∧ Arbitrated (closingRun.take 4) twoRecordings c := by
  have hfirst : Reaches exec (fun i => (twoRecordings i).prog) busy
      (Config.start (after Db.empty (closingRun.take 4))) _ := reaches_alone (i := true) rfl rfl
  have hboth := hfirst.trans (reaches_alone (i := false) rfl rfl)
  exact ⟨_, ⟨_, rfl, _, rfl⟩, rfl, uniqueness_enforced hboth⟩

end Satunera.Store
