import Mathlib.Data.List.Sort
import Mathlib.Data.Nat.Basic
import Orchestrator.Lib.Fleet

/-!
# Migrations

`New` and `runMigrations` of `internal/store/postgres/postgres.go`. A process that opens the
store applies the scripts that are not recorded yet, in the order of their names, each in a
transaction together with its record. Several processes may do so at once, each may stop at
any point, and commands may fail before or after Postgres has executed them.
-/

namespace Orchestrator.Migrations

open Lib Program

/-- Commands to Postgres, which answer nothing when they fail, and the end of `New`. -/
inductive Command : Type → Type
  /-- `CREATE TABLE IF NOT EXISTS schema_migrations`. -/
  | createTable : Command (Option Unit)
  /-- `SELECT EXISTS` of the record of a script. -/
  | already (filename : String) : Command (Option Bool)
  /-- The transaction that executes a script and inserts its record. -/
  | migrate (filename : String) : Command (Option Unit)
  /-- `New` returns the store. -/
  | opened : Command Unit

/-- The loop of `runMigrations`. The answer is whether there was no error. -/
def migrateAll : List String → Program Command Empty Bool
  | [] => pure true
  | name :: names => do
    match ← request (.already name) with
    | none => pure false
    | some true => migrateAll names
    | some false =>
      match ← request (.migrate name) with
      | none => pure false
      | some () => migrateAll names

/-- The scripts among the embedded files, in the order of `sort.Strings`. -/
def scriptNames (entries : List String) : List String :=
  (entries.filter (·.endsWith ".sql")).insertionSort (· ≤ ·)

/-- `runMigrations`. -/
def runMigrations (entries : List String) : Program Command Empty Bool := do
  match ← request .createTable with
  | none => pure false
  | some () => migrateAll (scriptNames entries)

/-- `New`. -/
def new (entries : List String) : Program Command Empty Unit := do
  let ok ← runMigrations entries
  if ok then request .opened else pure ()

/-- The database, and the processes that have opened it. -/
structure State (σ : Type) where
  schema : σ
  /-- The table `schema_migrations` exists. -/
  table : Bool
  /-- The records, in the order of their insertion. -/
  records : List String
  opened : List String

section Model

variable {σ : Type} (script : String → σ → Option σ)

/-- What a command does. A script may fail, and a second record of it violates the primary
key. -/
def Command.exec : {β : Type} → String → Command β → Reply → State σ → β × State σ
  | _, _, .createTable, d, s => d.result s () { s with table := true }
  | _, _, .already filename, d, s =>
    if s.table then d.result s (decide (filename ∈ s.records)) s else (none, s)
  | _, _, .migrate filename, d, s =>
    match script filename s.schema with
    | none => (none, s)
    | some schema =>
      if s.table ∧ filename ∉ s.records then
        d.result s () { s with schema, records := s.records ++ [filename] }
      else (none, s)
  | _, node, .opened, _, s => ((), { s with opened := s.opened ++ [node] })

/-- Processes that open the store. -/
def processes (entries : List String) :
    Protocol Command String (State σ) Reply Empty Unit where
  exec := Command.exec script
  drift := fun e _ => e.elim
  prog _ _ := new entries

/-- Execute scripts one after the other. -/
def executeAll (names : List String) (schema : σ) : Option σ :=
  names.foldlM (fun schema name => script name schema) schema

end Model

section Order

variable {σ : Type} {script : String → σ → Option σ} {names before names' : List String}
  {name : String} {t : ℕ}

/-- A recorded script is one of the first. -/
theorem length_lt_of_mem (hnodup : names.Nodup) (hnames : names = before ++ name :: names')
    (hmem : name ∈ names.take t) : before.length < t := by
  by_contra hle
  have htake : names.take t = before.take t := by
    rw [hnames, List.take_append_of_le_length (Nat.le_of_not_lt hle)]
  rw [htake] at hmem
  rw [hnames] at hnodup
  exact (List.nodup_append.mp hnodup).2.2 name (List.mem_of_mem_take hmem) name
    List.mem_cons_self rfl

/-- What a command may ask, when the first `t` scripts are recorded. -/
def Asks (names : List String) (t : ℕ) : {β : Type} → Command β → Prop
  | _, .migrate filename => ∃ before names', names = before ++ filename :: names' ∧
      before.length ≤ t
  | _, .opened => names.length ≤ t
  | _, _ => True

/-- What a command is answered. -/
def Answers (names : List String) (t : ℕ) : {β : Type} → Command β → β → Prop
  | _, .already filename, answer => answer = some true → filename ∈ names.take t
  | _, .migrate filename, answer => answer = some () → filename ∈ names.take t
  | _, _, _ => True

/-- The scripts are recorded in order, and success means that all of them are. -/
theorem migrateAll_guarantees (hnodup : names.Nodup) :
    ∀ (names' before : List String), names = before ++ names' → ∀ t, before.length ≤ t →
      (migrateAll names').Guarantees (Asks names) (Answers names)
        (fun t ok => ok = true → names.length ≤ t) t := by
  intro names'
  induction names' with
  | nil =>
    intro before hnames t ht _
    rw [hnames, List.append_nil]
    exact ht
  | cons name names' ih =>
    intro before hnames t ht
    have hsplit : names = (before ++ [name]) ++ names' := by simp [hnames]
    have hnext : ∀ t', name ∈ names.take t' → (before ++ [name]).length ≤ t' := by
      intro t' hmem
      rw [List.length_append, List.length_singleton]
      exact length_lt_of_mem hnodup hnames hmem
    refine .bind (Q := fun t answer => answer = some true → name ∈ names.take t)
      (.request (fun t' _ => ⟨trivial, fun _ _ _ hanswer => hanswer⟩))
      (fun answer t₁ ht₁ hmem => ?_)
    cases answer with
    | none => exact fun h => by cases h
    | some already =>
      cases already with
      | true => exact ih _ hsplit t₁ (hnext t₁ (hmem rfl))
      | false =>
        refine .bind (Q := fun t answer => answer = some () → name ∈ names.take t)
          (.request (fun t₂ ht₂ => ⟨⟨before, names', hnames, ht.trans (ht₁.trans ht₂)⟩,
            fun _ _ _ hanswer => hanswer⟩)) (fun answer t₃ _ hmem => ?_)
        cases answer with
        | none => exact fun h => by cases h
        | some _ => exact ih _ hsplit t₃ (hnext t₃ (hmem rfl))

variable {entries : List String} {s₀ : σ} {s : State σ}

/-- Opening the store keeps to that. -/
theorem new_guarantees (hnodup : (scriptNames entries).Nodup) (t : ℕ) :
    (new entries).Guarantees (Asks (scriptNames entries)) (Answers (scriptNames entries))
      (fun _ _ => True) t := by
  refine .bind (Q := fun t ok => ok = true → (scriptNames entries).length ≤ t) ?_
    (fun ok t₁ _ hok => ?_)
  · refine .bind (Q := fun _ _ => True) (.plain (fun _ => trivial)) (fun answer t₁ _ _ => ?_)
    cases answer with
    | none => exact fun h => by cases h
    | some _ => exact migrateAll_guarantees hnodup _ [] rfl t₁ (Nat.zero_le _)
  · cases ok with
    | false => trivial
    | true => exact .request (fun t₂ ht₂ => ⟨(hok rfl).trans ht₂, fun _ _ _ _ => trivial⟩)

/-- The records are the first scripts, the schema is what these have made of the first one,
and a process that has opened the store has found all of them recorded. -/
structure Inv (script : String → σ → Option σ) (names : List String) (s₀ : σ) (s : State σ) :
    Prop where
  records : s.records = names.take s.records.length
  schema : executeAll script s.records s₀ = some s.schema
  opened : ∀ node ∈ s.opened, names.length ≤ s.records.length

/-- A script that comes next is not recorded, and all before it are. -/
theorem Inv.records_eq (h : Inv script names s₀ s) (hnames : names = before ++ name :: names')
    (hle : before.length ≤ s.records.length) (hnew : name ∉ s.records) : s.records = before := by
  have hlen : s.records.length = before.length := by
    refine le_antisymm (Nat.le_of_not_lt (fun hlt => hnew ?_)) hle
    rw [h.records, hnames, List.take_append, List.take_cons (Nat.sub_pos_of_lt hlt)]
    simp
  rw [h.records, hlen, hnames, List.take_left]

/-- A further script is executed. -/
theorem Inv.record (h : Inv script names s₀ s) (hnames : names = before ++ name :: names')
    (hle : before.length ≤ s.records.length) (hnew : name ∉ s.records) {schema : σ}
    (hscript : script name s.schema = some schema) :
    Inv script names s₀ { s with schema, records := s.records ++ [name] } := by
  have hbefore := h.records_eq hnames hle hnew
  refine ⟨?_, ?_, fun node hnode => ?_⟩
  · have hsplit : names = (before ++ [name]) ++ names' := by simp [hnames]
    rw [hsplit, hbefore, List.take_left]
  · have hschema := h.schema
    rw [executeAll] at hschema ⊢
    rw [List.foldlM_append, hschema]
    simpa using hscript
  · exact (h.opened node hnode).trans (by simp)

/-- One command keeps the invariant and is answered as promised. -/
theorem Inv.exec (h : Inv script names s₀ s) {node : String} {d : Reply} {β : Type}
    {op : Command β} (hasks : Asks names s.records.length op) :
    Inv script names s₀ (op.exec script node d s).2 ∧
      s.records.length ≤ (op.exec script node d s).2.records.length ∧
      Answers names (op.exec script node d s).2.records.length op
        (op.exec script node d s).1 := by
  cases op with
  | createTable =>
    have hmade : Inv script names s₀ { s with table := true } :=
      ⟨h.records, h.schema, h.opened⟩
    exact Reply.result_elim (P := fun answer s' => Inv script names s₀ s' ∧
      s.records.length ≤ s'.records.length ∧ Answers names s'.records.length .createTable answer)
      ⟨hmade, le_rfl, trivial⟩ ⟨hmade, le_rfl, trivial⟩ ⟨h, le_rfl, trivial⟩
  | already filename =>
    have hfound : decide (filename ∈ s.records) = true →
        filename ∈ names.take s.records.length := by
      intro hmem
      rw [← h.records]
      exact of_decide_eq_true hmem
    simp only [Command.exec]
    split_ifs with htable
    · exact Reply.result_elim (P := fun answer s' => Inv script names s₀ s' ∧
        s.records.length ≤ s'.records.length ∧
        Answers names s'.records.length (.already filename) answer)
        ⟨h, le_rfl, fun hmem => hfound (Option.some.inj hmem)⟩
        ⟨h, le_rfl, fun hmem => by cases hmem⟩ ⟨h, le_rfl, fun hmem => by cases hmem⟩
    · exact ⟨h, le_rfl, fun hmem => by cases hmem⟩
  | migrate filename =>
    obtain ⟨before, names', hnames, hle⟩ := hasks
    simp only [Command.exec]
    cases hscript : script filename s.schema with
    | none => exact ⟨h, le_rfl, fun hanswer => by cases hanswer⟩
    | some schema =>
      dsimp only
      split_ifs with hnew
      · have hrecord := h.record hnames hle hnew.2 hscript
        have hmem : filename ∈ names.take (s.records ++ [filename]).length := by
          rw [← hrecord.records]
          exact List.mem_append_right _ (List.mem_singleton_self _)
        exact Reply.result_elim (P := fun answer s' => Inv script names s₀ s' ∧
          s.records.length ≤ s'.records.length ∧
          Answers names s'.records.length (.migrate filename) answer)
          ⟨hrecord, by simp, fun _ => hmem⟩ ⟨hrecord, by simp, fun _ => hmem⟩
          ⟨h, le_rfl, fun hanswer => by cases hanswer⟩
      · exact ⟨h, le_rfl, fun hanswer => by cases hanswer⟩
  | opened =>
    refine ⟨⟨h.records, h.schema, fun n hn => ?_⟩, le_rfl, trivial⟩
    exact hasks

/-- The contract of the processes. -/
def contract (script : String → σ → Option σ) (hnodup : (scriptNames entries).Nodup) (s₀ : σ) :
    Contract (processes script entries) ℕ where
  time s := s.records.length
  inv := Inv script (scriptNames entries) s₀
  since := 0
  asks _ _ := Asks (scriptNames entries)
  answers _ _ := Answers (scriptNames entries)
  allowed _ _ := True
  drift {_ e} _ _ := e.elim
  start _ _ _ := new_guarantees hnodup _
  exec _ h hasks := h.exec hasks

/-- A process that is left alone executes what remains. -/
theorem migrateAll_alone (entries : List String) (hnodup : names.Nodup) {schema : σ}
    (hall : executeAll script names s₀ = some schema) (node : String) :
    ∀ (names' before : List String), names = before ++ names' → ∀ s : State σ,
      Inv script names s₀ s → s.table = true → before.length ≤ s.records.length →
      ∃ s', (processes script entries).alone node .answered (migrateAll names') s = (true, s') ∧
        Inv script names s₀ s' ∧ names.length ≤ s'.records.length := by
  intro names'
  induction names' with
  | nil =>
    intro before hnames s h _ hle
    rw [List.append_nil] at hnames
    exact ⟨s, rfl, h, hnames ▸ hle⟩
  | cons name names' ih =>
    intro before hnames s h htable hle
    have hsplit : names = (before ++ [name]) ++ names' := by simp [hnames]
    by_cases hmem : name ∈ s.records
    · have hlt := length_lt_of_mem hnodup hnames (h.records ▸ hmem)
      have hfound : (processes script entries).exec node (.already name) .answered s =
          (some true, s) := by
        simp [processes, Command.exec, htable, hmem, Reply.result]
      obtain ⟨s', hs', hinv⟩ := ih _ hsplit s h htable (by rw [List.length_append]; exact hlt)
      refine ⟨s', ?_, hinv⟩
      rw [migrateAll, Protocol.alone_bind, Protocol.alone_request, hfound]
      exact hs'
    · have hbefore := h.records_eq hnames hle hmem
      have hscript : ∃ schema', script name s.schema = some schema' := by
        have hrun := h.schema
        rw [executeAll] at hrun hall
        rw [hbefore] at hrun
        rw [hnames, List.foldlM_append, hrun, Option.bind_eq_bind, Option.bind_some,
          List.foldlM_cons] at hall
        obtain ⟨schema', hschema', -⟩ := Option.bind_eq_some_iff.mp hall
        exact ⟨schema', hschema'⟩
      obtain ⟨schema', hschema'⟩ := hscript
      have hrecord := h.record hnames hle hmem hschema'
      obtain ⟨s', hs', hinv⟩ := ih _ hsplit _ hrecord htable (by simp [hbefore])
      have hmissing : (processes script entries).exec node (.already name) .answered s =
          (some false, s) := by
        simp [processes, Command.exec, htable, hmem, Reply.result]
      have hdone : (processes script entries).exec node (.migrate name) .answered s =
          (some (), { s with schema := schema', records := s.records ++ [name] }) := by
        simp [processes, Command.exec, htable, hmem, hschema', Reply.result]
      refine ⟨s', ?_, hinv⟩
      rw [migrateAll, Protocol.alone_bind, Protocol.alone_request, hmissing]
      change (processes script entries).alone node .answered (request (.migrate name) >>= _) s = _
      rw [Protocol.alone_bind, Protocol.alone_request, hdone]
      exact hs'

end Order

/-- However many processes open the store at once, wherever they stop and whichever commands
fail, each script is executed at most once and only after those before it, and the schema is
what the recorded scripts have made of the first one. A process that has opened the store
finds all scripts executed. If the scripts can be executed, a process that is left alone
opens the store. -/
theorem migrations_in_order {σ : Type} (script : String → σ → Option σ) {entries : List String}
    (hentries : entries.Nodup) (s₀ : σ) {S : Fleet Command String (State σ)}
    {xs : List (Fleet Command String (State σ) × Occurrence String Reply Empty Unit)}
    (h : (processes script entries).Trace ⟨⟨s₀, false, [], []⟩, []⟩ xs S) :
    S.state.records <+: scriptNames entries ∧
    executeAll script S.state.records s₀ = some S.state.schema ∧
    (∀ node ∈ S.state.opened, S.state.records = scriptNames entries) ∧
    ∀ schema, executeAll script (scriptNames entries) s₀ = some schema → ∀ node,
      let s := ((processes script entries).alone node .answered (new entries) S.state).2
      node ∈ s.opened ∧ s.records = scriptNames entries ∧ s.schema = schema := by
  have hnodup : (scriptNames entries).Nodup :=
    (List.perm_insertionSort _ _).nodup_iff.mpr (hentries.filter _)
  have hstart : (contract script hnodup s₀).Kept ⟨⟨s₀, false, [], []⟩, []⟩ :=
    ⟨⟨rfl, rfl, fun _ h => absurd h List.not_mem_nil⟩, le_rfl, fun i c hc => by cases hc⟩
  have hinv : Inv script (scriptNames entries) s₀ S.state :=
    (hstart.trace h (fun _ _ => trivial)).inv
  have hfull : ∀ {s : State σ}, Inv script (scriptNames entries) s₀ s →
      (scriptNames entries).length ≤ s.records.length → s.records = scriptNames entries :=
    fun hs hle => hs.records.trans (List.take_of_length_le hle)
  refine ⟨hinv.records ▸ List.take_prefix _ _, hinv.schema,
    fun node hnode => hfull hinv (hinv.opened node hnode), fun schema hall node => ?_⟩
  have hmade : Inv script (scriptNames entries) s₀ { S.state with table := true } :=
    ⟨hinv.records, hinv.schema, hinv.opened⟩
  obtain ⟨s', hs', hinv', hle⟩ := migrateAll_alone entries hnodup hall node _ [] rfl _
    hmade rfl (Nat.zero_le _)
  have hnew : (processes script entries).alone node .answered (new entries) S.state =
      ((), { s' with opened := s'.opened ++ [node] }) := by
    have hrun : (processes script entries).alone node .answered (runMigrations entries) S.state =
        (true, s') := by
      rw [runMigrations, Protocol.alone_bind]
      exact hs'
    rw [new, Protocol.alone_bind, hrun]
    rfl
  have hrecords := hfull hinv' hle
  have hschema := hinv'.schema
  rw [hrecords, hall] at hschema
  rw [hnew]
  exact ⟨List.mem_append_right _ (List.mem_singleton_self _), hrecords,
    (Option.some.inj hschema).symm⟩

/-- Two processes find that no script is recorded. One of them executes the first script and
stops, and the other fails on it. -/
def racing : List (Occurrence String Reply Empty Unit) :=
  [.start "node-a" (), .start "node-b" (), .exec 0 .answered, .exec 1 .answered,
    .exec 0 .answered, .exec 1 .answered, .exec 0 .lost, .exec 1 .answered]

/-- Files with two scripts, each of which adds one to a counter. -/
def counting : Protocol Command String (State ℕ) Reply Empty Unit :=
  processes (fun _ n => some (n + 1)) ["0002_more.sql", "notes", "0001_init.sql"]

/-- The run in which two nodes migrate at once. -/
def raced : List (Fleet Command String (State ℕ) × Occurrence String Reply Empty Unit) ×
    Fleet Command String (State ℕ) :=
  (counting.run ⟨⟨0, false, [], []⟩, []⟩ racing).get (by decide +kernel)

/-- The second script is executed as soon as a process is left alone. -/
theorem migrations_in_order_race :
    raced.2.state.records = ["0001_init.sql"] ∧ raced.2.state.schema = 1 ∧
      raced.2.state.opened = [] ∧
      let s := (counting.alone "node-c" .answered
        (new ["0002_more.sql", "notes", "0001_init.sql"]) raced.2.state).2
      "node-c" ∈ s.opened ∧ s.records = ["0001_init.sql", "0002_more.sql"] ∧ s.schema = 2 := by
  have h := migrations_in_order (fun _ (n : ℕ) => some (n + 1))
    (by decide : ["0002_more.sql", "notes", "0001_init.sql"].Nodup) 0
    (Protocol.trace_of_run (Option.some_get _).symm : counting.Trace _ raced.1 raced.2)
  have hnames : scriptNames ["0002_more.sql", "notes", "0001_init.sql"] =
      ["0001_init.sql", "0002_more.sql"] := by
    decide +kernel
  have halone := h.2.2.2 2 (by decide +kernel) "node-c"
  rw [hnames] at halone
  exact ⟨by decide +kernel, by decide +kernel, by decide +kernel, halone⟩

end Orchestrator.Migrations
