import ForkWatch.Lib.Table
import ForkWatch.Db.Queries

/-!
# What is kept, and what a query finds

Three tables are only inserted into and cleaned up. After any order of statements each
holds exactly its insertions, in order, less those that a later cleanup of that table
found outdated (`retention`). Of the resubmission attempts, those without a signer or a
nonce never come in.

The queries number their parameters as they go, some with the limit first and some with
it last. Whatever is asked for, the answer is the newest rows that have it
(`queries_answer`).
-/

namespace ForkWatch.Proof

open Lib Database

/-! ## Retention -/

section Kept

variable {α : Type} {inserts : Statement → List (LogEntry α)} {cleans : Statement → Option Int}

/-- A cleanup finds the row outdated. -/
def cleanedBy (cleans : Statement → Option Int) (s : Statement) (r : LogEntry α) : Bool :=
  (cleans s).any fun days => outdated s.now days r.time

/-- The insertions that no later cleanup found outdated. -/
def kept (inserts : Statement → List (LogEntry α)) (cleans : Statement → Option Int)
    (evs : List Statement) : List (LogEntry α) :=
  (births inserts evs).filterMap fun b =>
    if b.2.any (cleanedBy cleans · b.1) then none else some b.1

/-- What a statement does to a table that is only inserted into and cleaned up. -/
def turned (inserts : Statement → List (LogEntry α)) (cleans : Statement → Option Int)
    (s : Statement) (l : List (LogEntry α)) : List (LogEntry α) :=
  (l.filter fun r => !cleanedBy cleans s r) ++ inserts s

/-- A statement that is about another table. -/
theorem turned_quiet {s : Statement} {l l' : List (LogEntry α)} (hl : l' = l)
    (hinserts : inserts s = []) (hcleans : cleans s = none) :
    l' = turned inserts cleans s l := by
  unfold turned cleanedBy
  rw [hl, hinserts, hcleans, List.append_nil]
  exact (List.filter_eq_self.mpr fun _ _ => rfl).symm

/-- An insertion. -/
theorem turned_insert {s : Statement} {l l' : List (LogEntry α)} (hl : l' = l ++ inserts s)
    (hcleans : cleans s = none) : l' = turned inserts cleans s l := by
  unfold turned cleanedBy
  rw [hl, hcleans]
  exact congrArg (· ++ inserts s) (List.filter_eq_self.mpr fun _ _ => rfl).symm

/-- A cleanup. -/
theorem turned_clean {s : Statement} {days : Int} {l l' : List (LogEntry α)}
    (hl : l' = l.filter fun r => !outdated s.now days r.time) (hinserts : inserts s = [])
    (hcleans : cleans s = some days) : l' = turned inserts cleans s l := by
  unfold turned cleanedBy
  rw [hl, hinserts, hcleans, List.append_nil]
  rfl

/-- **A table that is only inserted into and cleaned up.** -/
theorem kept_run {table : Database → List (LogEntry α)} (hempty : table machine.init = [])
    (hstep : ∀ db s, table (db.execute s) = turned inserts cleans s (table db))
    (evs : List Statement) : table (machine.run evs) = kept inserts cleans evs := by
  have hturn : ∀ db s, table (machine.step db s) = (table db).filterMap (fun r =>
      if cleanedBy cleans s r then none else some r) ++ inserts s := by
    intro db s
    refine (hstep db s).trans (congrArg (· ++ inserts s) ?_)
    rw [← List.filterMap_eq_filter]
    refine List.filterMap_congr fun r _ => ?_
    cases hcleaned : cleanedBy cleans s r with
    | false => simp [hcleaned]
    | true => simp [hcleaned]
  have hrun := table_runFrom table hturn machine.init evs
  rw [hempty, List.filterMap_nil, List.nil_append] at hrun
  refine hrun.trans (List.filterMap_congr fun b _ => ?_)
  exact life_of_drops (fun _ _ => rfl) b.2 b.1

end Kept

def insertsFinality (s : Statement) : List (LogEntry FinalityLogRow) :=
  match s.query with
  | .insertFinalityLog chain row => [⟨chain, s.now, row⟩]
  | _ => []

def cleansFinality (s : Statement) : Option Int :=
  match s.query with
  | .deleteFinalityLog days => some days
  | _ => none

def insertsTx (s : Statement) : List (LogEntry SubmittedTx) :=
  match s.query with
  | .insertSubmittedTx chain row => [⟨chain, s.now, row⟩]
  | _ => []

def cleansTxs (s : Statement) : Option Int :=
  match s.query with
  | .deleteSubmittedTxs days => some days
  | _ => none

/-- A signer or a nonce that is null brings no row. -/
def insertsAttempt (s : Statement) : List (LogEntry ResubmitAttemptRow) :=
  match s.query with
  | .insertResubmitAttempt chain row =>
      ((resubmitAttemptRow row).map (⟨chain, s.now, ·⟩)).toList
  | _ => []

def cleansAttempts (s : Statement) : Option Int :=
  match s.query with
  | .deleteResubmitAttempts days => some days
  | _ => none

/-- What a statement does to the three tables. -/
structure LogsTurn (db : Database) (s : Statement) (db' : Database) : Prop where
  finalityLog : db'.finalityLog = turned insertsFinality cleansFinality s db.finalityLog
  submittedTxs : db'.submittedTxs = turned insertsTx cleansTxs s db.submittedTxs
  resubmitAttempts :
    db'.resubmitAttempts = turned insertsAttempt cleansAttempts s db.resubmitAttempts

theorem logs_execute (db : Database) (s : Statement) : LogsTurn db s (db.execute s) := by
  have hlatest : ∀ test pick f, (db.updateLatest test pick f).finalityLog = db.finalityLog ∧
      (db.updateLatest test pick f).submittedTxs = db.submittedTxs ∧
      (db.updateLatest test pick f).resubmitAttempts = db.resubmitAttempts := by
    intro test pick f
    unfold updateLatest
    split
    · exact ⟨rfl, rfl, rfl⟩
    · exact ⟨rfl, rfl, rfl⟩
  obtain ⟨now, query⟩ := s
  cases query with
  | insertFinalityLog =>
      exact ⟨turned_insert rfl rfl, turned_quiet rfl rfl rfl, turned_quiet rfl rfl rfl⟩
  | insertSubmittedTx =>
      exact ⟨turned_quiet rfl rfl rfl, turned_insert rfl rfl, turned_quiet rfl rfl rfl⟩
  | insertResubmitAttempt =>
      exact ⟨turned_quiet rfl rfl rfl, turned_quiet rfl rfl rfl, turned_insert rfl rfl⟩
  | deleteFinalityLog =>
      exact ⟨turned_clean rfl rfl rfl, turned_quiet rfl rfl rfl, turned_quiet rfl rfl rfl⟩
  | deleteSubmittedTxs =>
      exact ⟨turned_quiet rfl rfl rfl, turned_clean rfl rfl rfl, turned_quiet rfl rfl rfl⟩
  | deleteResubmitAttempts =>
      exact ⟨turned_quiet rfl rfl rfl, turned_quiet rfl rfl rfl, turned_clean rfl rfl rfl⟩
  | updateCause | updateForkAuthors =>
      obtain ⟨hfinality, htxs, hattempts⟩ := hlatest _ _ _
      exact ⟨turned_quiet hfinality rfl rfl, turned_quiet htxs rfl rfl,
        turned_quiet hattempts rfl rfl⟩
  | insertForkBlock | insertForkEvent | resolveForkEvent | updateRelayParent
  | updateBlockAuthor | deleteForkBlocks | deleteForkEvents =>
      exact ⟨turned_quiet rfl rfl rfl, turned_quiet rfl rfl rfl, turned_quiet rfl rfl rfl⟩

/-- What the three tables hold after a run. -/
structure Retention (evs : List Statement) : Prop where
  finalityLog : (machine.run evs).finalityLog = kept insertsFinality cleansFinality evs
  submittedTxs : (machine.run evs).submittedTxs = kept insertsTx cleansTxs evs
  resubmitAttempts : (machine.run evs).resubmitAttempts = kept insertsAttempt cleansAttempts evs

/-- **Nothing is lost before its time, and nothing is kept beyond it.** -/
theorem retention (evs : List Statement) : Retention evs where
  finalityLog := kept_run rfl (fun db s => (logs_execute db s).finalityLog) evs
  submittedTxs := kept_run rfl (fun db s => (logs_execute db s).submittedTxs) evs
  resubmitAttempts := kept_run rfl (fun db s => (logs_execute db s).resubmitAttempts) evs

/-! ## Queries -/

section Selects

variable {κ ρ : Type}

/-- The cell is what was asked for, if anything was. -/
def asked (value : Option String) (cell : Option Param) : Bool :=
  (orNull value).all fun v => cell = some (.text v)

/-- The conditions hold, as far as they have been put together. -/
def accepts (w : Where κ) (column : κ → Option Param) : Bool :=
  w.conditions.all fun c =>
    (column c.column).isSome && column c.column = w.params[c.placeholder - 1]?

theorem all_congr_of_mem {α : Type} {l : List α} {p q : α → Bool} (h : ∀ a ∈ l, p a = q a) :
    l.all p = l.all q := by
  rw [Bool.eq_iff_iff, List.all_eq_true, List.all_eq_true]
  exact forall₂_congr fun a ha => by rw [h a ha]

/-- A further parameter is none that an earlier condition compares with. -/
theorem getElem?_params_append (w : Where κ) (value : Param) {c : Condition κ}
    (hc : c ∈ w.conditions) :
    (w.params ++ [value])[c.placeholder - 1]? = w.params[c.placeholder - 1]? := by
  have hbound := w.numbered c hc
  exact List.getElem?_append_left (by omega)

theorem accepts_push (w : Where κ) (column : κ → Option Param) (asks : κ) (value : Param) :
    accepts (w.push asks value) column
      = (accepts w column && decide (column asks = some value)) := by
  have hnew : (w.params ++ [value])[w.params.length + 1 - 1]? = some value := by simp
  have hold : (w.conditions.all fun c => (column c.column).isSome &&
      column c.column = (w.params ++ [value])[c.placeholder - 1]?) = accepts w column := by
    refine all_congr_of_mem fun c hc => ?_
    rw [getElem?_params_append w value hc]
  change ((w.conditions ++ [_]).all fun c => (column c.column).isSome &&
    column c.column = (w.params ++ [value])[c.placeholder - 1]?) = _
  rw [List.all_append, hold, List.all_cons, List.all_nil, Bool.and_true, hnew]
  cases hcell : column asks with
  | none => rfl
  | some v => rfl

theorem accepts_ask (w : Where κ) (column : κ → Option Param) (asks : κ)
    (value : Option String) : accepts (w.ask asks value) column
      = (accepts w column && asked value (column asks)) := by
  unfold Where.ask asked
  cases orNull value with
  | none => exact (Bool.and_true _).symm
  | some v => exact accepts_push w column asks (.text v)

theorem selects_limited (w : Where κ) (limit : Nat) (column : κ → Option Param) :
    (w.limited limit).selects column = accepts w column := by
  refine all_congr_of_mem fun c hc => ?_
  have hparam : (w.limited limit).param c.placeholder = w.params[c.placeholder - 1]? :=
    getElem?_params_append w _ hc
  rw [hparam]

theorem limit_limited (w : Where κ) (limit : Nat) :
    (w.limited limit).param (w.params.length + 1) = some (.number limit) := by
  unfold Select.param Where.limited
  simp

/-- The newest rows that pass a test, at most `limit` of them. -/
def Newest (test : ρ → Bool) (time : ρ → Int) (limit : Nat) (table rows : List ρ) : Prop :=
  ∃ sorted : List ρ, sorted.Perm (table.filter test) ∧ (sorted.Pairwise fun r r' => time r' ≤ time r) ∧
    rows = sorted.take limit

/-- The answers of a query with this test and this limit. -/
theorem answers_iff_newest {q : Select κ} {column : ρ → κ → Option Param} {time : ρ → Int}
    {test : ρ → Bool} {limit placeholder : Nat} (hnewest : q.newestFirst = true)
    (hlimit : q.limit = some placeholder) (hparam : q.param placeholder = some (.number limit))
    (htest : ∀ r, q.selects (column r) = test r) (table rows : List ρ) :
    q.Answers column time table rows ↔ Newest test time limit table rows := by
  have hfilter : (table.filter fun r => q.selects (column r)) = table.filter test :=
    List.filter_congr fun r _ => htest r
  unfold Select.Answers Newest
  rw [hfilter, hnewest, hlimit]
  dsimp only
  rw [hparam]
  refine exists_congr fun sorted => and_congr_right fun _ => and_congr Iff.rfl ?_
  refine ⟨fun hex => ?_, fun hrows => ⟨limit, rfl, hrows⟩⟩
  obtain ⟨n, hn, hrows⟩ := hex
  have heq : limit = n := by simpa using hn
  rw [heq]
  exact hrows

end Selects

/-- What the queries find, in any table. -/
structure QueriesAnswer : Prop where
  submittedTxs : ∀ chain status limit kind table rows,
    (getSubmittedTxs chain status limit kind).Answers submittedTxColumn LogEntry.time table rows ↔
      Newest (fun r => asked chain (some (.text r.chain))
        && asked status (some (.text r.row.status.text))
        && asked kind (some (.text r.row.kind.text))) LogEntry.time limit table rows
  bySigner : ∀ chain signer limit table rows,
    (getSubmittedTxsBySigner chain signer limit).Answers submittedTxColumn LogEntry.time table rows ↔
      Newest (fun r => r.chain = chain ∧ r.row.signer = some signer) LogEntry.time limit table rows
  attempts : ∀ chain signer limit table rows,
    (getResubmitAttempts chain signer limit).Answers resubmitAttemptColumn LogEntry.time table
        rows ↔
      Newest (fun r => asked chain (some (.text r.chain))
        && asked signer (some (.text r.row.signer))) LogEntry.time limit table rows
  forkEvents : ∀ chain limit table rows,
    (getRecentForkEvents chain limit).Answers forkEventColumn ForkEvent.detectedAt table rows ↔
      Newest (fun r => asked chain (some (.text r.chain))) ForkEvent.detectedAt limit table rows
  blocks : ∀ chain height table rows,
    (getBlocksAtHeight chain height).Answers forkBlockColumn ForkBlock.importedAt table rows ↔
      rows.Perm (table.filter fun r => r.chain = chain ∧ r.blockNumber = height) ∧
        rows.Pairwise fun r r' => r.importedAt ≤ r'.importedAt

/-- **A query finds what it is asked for.** -/
theorem queries_answer : QueriesAnswer where
  submittedTxs := by
    intro chain status limit kind table rows
    refine answers_iff_newest rfl rfl (limit_limited _ limit) (fun r => ?_) table rows
    refine (selects_limited _ limit _).trans ?_
    rw [accepts_ask, accepts_ask, accepts_ask]
    rfl
  bySigner := by
    intro chain signer limit table rows
    refine answers_iff_newest rfl rfl rfl (fun r => ?_) table rows
    unfold Select.selects getSubmittedTxsBySigner submittedTxColumn
    cases r.row.signer with
    | none => simp [Select.param]
    | some s => simp [Select.param]
  attempts := by
    intro chain signer limit table rows
    refine answers_iff_newest rfl rfl (limit_limited _ limit) (fun r => ?_) table rows
    refine (selects_limited _ limit _).trans ?_
    rw [accepts_ask, accepts_ask]
    rfl
  forkEvents := by
    intro chain limit table rows
    unfold getRecentForkEvents asked
    cases orNull chain with
    | none => exact answers_iff_newest rfl rfl rfl (fun _ => rfl) table rows
    | some chain =>
        refine answers_iff_newest rfl rfl rfl (fun r => ?_) table rows
        simp [Select.selects, Select.param, forkEventColumn]
  blocks := by
    intro chain height table rows
    have hfilter : (table.filter fun r =>
        (getBlocksAtHeight chain height).selects (forkBlockColumn r))
        = table.filter fun r => r.chain = chain ∧ r.blockNumber = height := by
      refine List.filter_congr fun r _ => ?_
      simp [Select.selects, Select.param, getBlocksAtHeight, forkBlockColumn]
    unfold Select.Answers
    rw [hfilter]
    refine ⟨fun hex => ?_, fun hrows => ⟨rows, hrows.1, hrows.2, rfl⟩⟩
    obtain ⟨sorted, hperm, hsorted, hrows⟩ := hex
    rw [show rows = sorted from hrows]
    exact ⟨hperm, hsorted⟩

end ForkWatch.Proof
