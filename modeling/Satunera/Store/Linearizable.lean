import Satunera.Base.Linearize
import Satunera.Store.Concurrency
import Satunera.Store.Refinement

/-!
# What concurrent clients see

Clients call the store concurrently, statement by statement behind the write lock, and read the committed tables
meanwhile. Everything they see is what one client would see of the ledger.

* `Interleaving` : the statement-level steps with the reads between them;
* `Linearized`, `linearized_of_watched` : the returns and the answers, in the order they happen, are a history of the
  ledger.
-/

namespace Satunera.Store

open Satunera.Base Satunera.Contracts

variable {F : TextForms} {ι : Type}

/-! ## Linearizability -/

/-- What is seen of concurrent calls: one returns, or a read is answered. -/
abbrev Seen (ι : Type) :=
  Observation ι StoreError (Except StoreError Reply) Query fun q => Except StoreError q.Answer

variable [DecidableEq ι] in
/-- The calls interleaved from the tables `t`, with reads of the committed tables. -/
abbrev Interleaving (calls : ι → Step F) (t : Db) : List (Option (Seen ι)) → Calls ι → Prop :=
  History (Watched exec (fun i => (calls i).prog) busy (Query.run F)) (Config.start t)

/-- What is seen, as an exchange with the store. -/
def exchange (calls : ι → Step F) : Seen ι → Exchange F
  | .returned i r => .call (calls i).call (reply r)
  | .read q x => .read q x

/-- What holds of the calls `calls`, started on tables that hold the ledger `a`, when `h` is all that was seen up to the
moment `c`. -/
structure Linearized (calls : ι → Step F) (a : Ledger) (h : List (Option (Seen ι))) (c : Calls ι) : Prop where
  /-- What was seen, in order, is a history of the ledger, and the tables hold the ledger it ends in. -/
  history : ∃ a', History LedgerStep a (h.reduceOption.map (exchange calls)) a' ∧ Represents F c.tables a'
  /-- The calls that returned are those that have ended, with these results. -/
  returned : ∀ i r, some (.returned i r) ∈ h ↔ c.calls i = .done r
  /-- No call returned twice. -/
  once : (h.filterMap returnedCall).Nodup

/-- A call as one step is an exchange with the store. -/
theorem storeStep_of_serial (calls : ι → Step F) {db db' : Db} {x : Seen ι}
    (h : SerialStep exec (fun i => (calls i).prog) busy (Query.run F) db x db') :
    StoreStep db (exchange calls x) db' := by
  cases h with
  | call i => exact .call (calls i)
  | busy i => exact .busy (calls i).call
  | read q => exact .read q

variable [DecidableEq ι]

/-- **Concurrent clients see what one client would see of the ledger:** calls take effect where they return, and reads
are answered where they are made. -/
theorem linearized_of_watched {calls : ι → Step F} {t : Db} {a : Ledger} (ha : Represents F t a)
    {h : List (Option (Seen ι))} {c : Calls ι} (hc : Interleaving calls t h c) : Linearized calls a h c where
  history := by
    have hserial := linearizes hc
    have hmap := hserial.map (N := StoreStep) (f := exchange calls) fun _ _ _ hs => storeStep_of_serial calls hs
    exact simulates.history hmap ha
  returned := returned_iff hc
  once := nodup_returned hc

/-- One of two workers finishes a submission, and it is read afterwards. -/
theorem linearized_twoFinishes : ∃ a h c, Represents .crockford (after Db.empty (closingRun.take 4)) a ∧
    c.calls true = .done (.ok (.ok .unit)) ∧ Linearized twoFinishes a h c := by
  obtain ⟨a, -, ha⟩ := represents_after (closingRun.take 4)
  have hfirst : Reaches exec (fun i => (twoFinishes i).prog) busy
      (Config.start (after Db.empty (closingRun.take 4))) _ :=
    reaches_alone (i := true) rfl rfl
  obtain ⟨h, hh⟩ := exists_watched (Query.run _) hfirst
  exact ⟨a, _, _, ha, rfl, linearized_of_watched ha (hh.snoc (.read (.submission ⟨2⟩)))⟩

end Satunera.Store
