import Nilo.Std.Text
import Mathlib.Data.List.Basic
import Mathlib.Data.List.Nodup

/-!
# Running migrations (`applyPending`, `apply`, `applyOutside`, `expect` in `sql/migrate.zig`)

A replica makes the ledger if it is not there, reads it once, and then applies each version of
its chain that it did not read there, each under the advisory lock and after looking again. A
version runs in one transaction with its ledger row, or, when it is not transactional, step by
step under the session's lock with the row last. What a transaction did is seen by nobody until
it commits; what a statement outside one did is seen at once. Every statement is a step of its
own, so `run` is any interleaving of any number of replicas, each of which may fail or die at
any of its statements.
-/

namespace Nilo.Sql

open Text (Bytes)

/-! ## Versions and the database -/

/-- One version of the chain, with the hash `chainOf` gave it. -/
structure Version (σ : Type) where
  number : Int
  hash : Bytes
  steps : List σ
  transactional : Bool

/-- A row of the ledger, as far as it is read. -/
structure Recorded where
  version : Int
  hash : Bytes
deriving DecidableEq, Repr

def Version.row {σ : Type} (v : Version σ) : Recorded := ⟨v.number, v.hash⟩

/-- What is committed, and who holds the advisory lock, in either of its forms. -/
structure Database (σ : Type) where
  /-- The ledger's table is there. -/
  made : Bool
  ledger : List Recorded
  /-- The steps that took effect, with the version each was of. -/
  effects : List (Int × σ)
  holder : Option Nat

def Database.empty {σ : Type} : Database σ := ⟨false, [], [], none⟩

def findVersion (recorded : List Recorded) (number : Int) : Option Recorded :=
  recorded.find? (·.version = number)

/-- What the ledger says of one version of the binary's chain. -/
inductive Seen where
  | absent
  | same
  | moved (hash : Bytes)
deriving DecidableEq, Repr

/-- Whether the version ran and its file has been edited since. -/
def Seen.edited : Seen → Bool
  | .moved _ => true
  | .absent | .same => false

def seen (recorded : List Recorded) (number : Int) (hash : Bytes) : Seen :=
  match findVersion recorded number with
  | none => .absent
  | some row => if row.hash = hash then .same else .moved row.hash

/-- The highest version applied, or zero. -/
def headVersion (ledger : List Recorded) : Int :=
  match (ledger.map (·.version)).max? with
  | some version => version
  | none => 0

inductive Verdict where
  | level
  | ahead
  | behind
deriving DecidableEq, Repr

/-- `Standing.verdict`: where the database is against the version the binary was built for. -/
def verdict (standing want : Int) : Verdict :=
  if standing = want then .level else if standing > want then .ahead else .behind

/-- Whether a database is served. One ahead of the binary is, with a line about it. -/
def expect (ledger : List Recorded) (want : Int) : Bool :=
  match verdict (headVersion ledger) want with
  | .level | .ahead => true
  | .behind => false

/-! ## A replica -/

/-- Where a replica stands: the next statement it sends. The versions in hand are followed by
those after them and the ledger as it was read. -/
inductive Stage (σ : Type) where
  /-- `ensureLedger`: read the catalog. -/
  | look
  /-- Ask for the lock the ledger is made behind. -/
  | askToMake
  | create
  | commitMade
  /-- `readLedger`. -/
  | read
  | loop (rest : List (Version σ)) (recorded : List Recorded)
  /-- Ask for the lock: the transaction's, or the session's. -/
  | ask (v : Version σ) (rest : List (Version σ)) (recorded : List Recorded)
  /-- The ledger, after the lock. -/
  | find (v : Version σ) (rest : List (Version σ)) (recorded : List Recorded)
  /-- It is there: let the lock go. -/
  | leave (v : Version σ) (rest : List (Version σ)) (recorded : List Recorded)
  /-- The steps left, and those done in the open transaction. -/
  | steps (v : Version σ) (left done : List σ) (rest : List (Version σ)) (recorded : List Recorded)
  /-- The row is in: commit, or let the session's lock go. -/
  | settle (v : Version σ) (done : List σ) (rest : List (Version σ)) (recorded : List Recorded)
  /-- A statement failed: roll back, or let the lock go. -/
  | failing
  | stopped (ok : Bool)

structure Replica (σ : Type) where
  chain : List (Version σ)
  stage : Stage σ

namespace Database

variable {σ : Type}

/-- Ask for the lock once: a no is over at once, and is asked again. -/
def lock (db : Database σ) (i : Nat) : Option (Database σ) :=
  if db.holder = none then some { db with holder := some i } else none

/-- A commit, a rollback, an unlock, or the end of a connection. -/
def unlock (db : Database σ) (i : Nat) : Database σ :=
  if db.holder = some i then { db with holder := none } else db

end Database

variable {σ : Type}

/-- What replica `i` does next. -/
def Replica.go (i : Nat) (db : Database σ) (r : Replica σ) : Database σ × Stage σ :=
  match r.stage with
  | .look => (db, if db.made then .read else .askToMake)
  | .askToMake =>
    match db.lock i with
    | none => (db, .askToMake)
    | some db => (db, .create)
  | .create => (db, .commitMade)
  | .commitMade => ({ db with made := true }.unlock i, .read)
  | .read =>
    if r.chain.any fun v => (seen db.ledger v.number v.hash).edited then (db, .stopped false)
    else (db, .loop r.chain db.ledger)
  | .loop [] _ => (db, .stopped true)
  | .loop (v :: rest) recorded =>
    match seen recorded v.number v.hash with
    | .absent => (db, .ask v rest recorded)
    | .same | .moved _ => (db, .loop rest recorded)
  | .ask v rest recorded =>
    match db.lock i with
    | none => (db, .ask v rest recorded)
    | some db => (db, .find v rest recorded)
  | .find v rest recorded =>
    match findVersion db.ledger v.number with
    | some _ => (db, .leave v rest recorded)
    | none => (db, .steps v v.steps [] rest recorded)
  | .leave _ rest recorded => (db.unlock i, .loop rest recorded)
  | .steps v (s :: left) done rest recorded =>
    if v.transactional then (db, .steps v left (done ++ [s]) rest recorded)
    else ({ db with effects := db.effects ++ [(v.number, s)] }, .steps v left done rest recorded)
  | .steps v [] done rest recorded =>
    if v.transactional then (db, .settle v done rest recorded)
    else ({ db with ledger := db.ledger ++ [v.row] }, .settle v done rest recorded)
  | .settle v done rest recorded =>
    if v.transactional then
      ({ db with
          ledger := db.ledger ++ [v.row]
          effects := db.effects ++ done.map (v.number, ·) }.unlock i, .loop rest recorded)
    else (db.unlock i, .loop rest recorded)
  | .failing => (db.unlock i, .stopped false)
  | .stopped ok => (db, .stopped ok)

/-! ## Any number of them -/

structure World (σ : Type) where
  db : Database σ
  replicas : List (Replica σ)

inductive Act (σ : Type) where
  /-- A replica boots with its chain. -/
  | boot (chain : List (Version σ))
  | go (i : Nat)
  /-- The statement a replica is at fails. -/
  | fail (i : Nat)
  /-- A replica is gone, and its connection with it. -/
  | die (i : Nat)

namespace World

def start : World σ := ⟨.empty, []⟩

def put (w : World σ) (db : Database σ) (i : Nat) (r : Replica σ) : World σ :=
  ⟨db, w.replicas.set i r⟩

def act (w : World σ) : Act σ → World σ
  | .boot chain => { w with replicas := w.replicas ++ [⟨chain, .look⟩] }
  | .go i =>
    match w.replicas[i]? with
    | none => w
    | some r => w.put (r.go i w.db).1 i { r with stage := (r.go i w.db).2 }
  | .fail i =>
    match w.replicas[i]? with
    | none => w
    | some r =>
      match r.stage with
      | .stopped _ => w
      -- a session's lock that could not be let go stays with its connection
      | .failing => w.put w.db i { r with stage := .stopped false }
      | _ => w.put w.db i { r with stage := .failing }
  | .die i =>
    match w.replicas[i]? with
    | none => w
    | some r => w.put (w.db.unlock i) i { r with stage := .stopped false }

def run (w : World σ) (acts : List (Act σ)) : World σ := acts.foldl act w

end World

/-! ## The ledger and the chain -/

/-- Version numbers go up along the chain: `readWith` sorts the files by number and refuses one
number twice. -/
def Increasing (full : List (Version σ)) : Prop := (full.map (·.number)).Pairwise (· < ·)

section Prefix

variable {full : List (Version σ)} {ledger : List Recorded}

theorem Increasing.nodup (h : Increasing full) : (full.map (·.number)).Nodup :=
  List.Pairwise.imp (fun hlt => Int.ne_of_lt hlt) h

theorem Increasing.eq_of_number (h : Increasing full) {u v : Version σ} (hu : u ∈ full)
    (hv : v ∈ full) (hnum : u.number = v.number) : u = v :=
  List.inj_on_of_nodup_map h.nodup hu hv hnum

theorem Increasing.nodup_rows (h : Increasing full) : (full.map Version.row).Nodup := by
  have hnum : ((full.map Version.row).map (·.version)).Nodup := by
    simpa [Version.row, Function.comp_def] using h.nodup
  exact List.Nodup.of_map _ hnum

/-- The ledger has a version as soon as it has its number. -/
theorem row_mem_of_number (h : Increasing full) (hledger : ledger <+: full.map Version.row)
    {v : Version σ} (hv : v ∈ full) {row : Recorded} (hrow : row ∈ ledger)
    (hnum : row.version = v.number) : v.row ∈ ledger := by
  obtain ⟨u, hu, rfl⟩ := List.mem_map.mp (hledger.subset hrow)
  have huv : u = v := h.eq_of_number hu hv hnum
  rwa [← huv]

theorem row_mem_of_findVersion (h : Increasing full) (hledger : ledger <+: full.map Version.row)
    {v : Version σ} (hv : v ∈ full) {recorded : List Recorded} (hsub : recorded ⊆ ledger)
    {row : Recorded} (hfind : findVersion recorded v.number = some row) : v.row ∈ ledger := by
  have hmem : row ∈ recorded := List.mem_of_find?_eq_some hfind
  have hnum : row.version = v.number := by
    simpa using List.find?_some hfind
  exact row_mem_of_number h hledger hv (hsub hmem) hnum

theorem row_notMem_of_findVersion {v : Version σ} (hfind : findVersion ledger v.number = none) :
    v.row ∉ ledger := by
  intro hmem
  have hne := List.find?_eq_none.mp hfind v.row hmem
  simp [Version.row] at hne

/-- A version is only left alone when it was read. -/
theorem row_mem_of_seen (h : Increasing full) (hledger : ledger <+: full.map Version.row)
    {v : Version σ} (hv : v ∈ full) {recorded : List Recorded} (hsub : recorded ⊆ ledger)
    (hseen : seen recorded v.number v.hash ≠ .absent) : v.row ∈ ledger := by
  cases hfind : findVersion recorded v.number with
  | none =>
    rw [seen, hfind] at hseen
    exact absurd rfl hseen
  | some row => exact row_mem_of_findVersion h hledger hv hsub hfind

/-- The version that is absent while all before it are recorded is the next one. -/
theorem ledger_eq_of_absent (h : Increasing full) (hledger : ledger <+: full.map Version.row)
    {before : List (Version σ)} {v : Version σ} (hpre : before ++ [v] <+: full)
    (hbefore : ∀ u ∈ before, u.row ∈ ledger) (habsent : v.row ∉ ledger) :
    ledger = before.map Version.row := by
  have hrows : before.map Version.row ++ [v.row] <+: full.map Version.row := by
    simpa using hpre.map Version.row
  have hle : ledger <+: before.map Version.row := by
    rcases List.prefix_or_prefix_of_prefix hledger hrows with hshort | hlong
    · rcases List.prefix_concat_iff.mp hshort with heq | hshort
      · exact absurd (by rw [heq]; simp) habsent
      · exact hshort
    · exact absurd (hlong.subset (by simp)) habsent
  have hnodup : (before.map Version.row).Nodup :=
    h.nodup_rows.sublist ((List.prefix_append _ _).trans hrows).sublist
  have hsub : before.map Version.row ⊆ ledger := by
    intro row hrow
    obtain ⟨u, hu, rfl⟩ := List.mem_map.mp hrow
    exact hbefore u hu
  exact hle.eq_of_length_le (hnodup.length_le_of_subset hsub)

/-- Recording it keeps the ledger a prefix of the chain. -/
theorem append_row_prefix (h : Increasing full) (hledger : ledger <+: full.map Version.row)
    {before : List (Version σ)} {v : Version σ} (hpre : before ++ [v] <+: full)
    (hbefore : ∀ u ∈ before, u.row ∈ ledger) (habsent : v.row ∉ ledger) :
    ledger ++ [v.row] <+: full.map Version.row := by
  rw [ledger_eq_of_absent h hledger hpre hbefore habsent]
  simpa using hpre.map Version.row

theorem versions_nodup (h : Increasing full) (hledger : ledger <+: full.map Version.row) :
    (ledger.map (·.version)).Nodup := by
  have hnum : ((full.map Version.row).map (·.version)).Nodup := by
    simpa [Version.row, Function.comp_def] using h.nodup
  exact hnum.sublist (hledger.map _).sublist

/-- A ledger whose highest version is not below `want` has every version up to it. Zero is the
height of a ledger with nothing in it, so the versions meant are those from one on. -/
theorem recorded_of_expect (h : Increasing full) (hledger : ledger <+: full.map Version.row)
    {want : Int} (hexpect : expect ledger want = true) {v : Version σ} (hv : v ∈ full)
    (hpos : 0 < v.number) (hwant : v.number ≤ want) : v.row ∈ ledger := by
  have hhead : want ≤ headVersion ledger := by
    simp only [expect, verdict] at hexpect
    split_ifs at hexpect with heq hgt
    · omega
    · omega
  simp only [headVersion] at hhead
  split at hhead
  case h_2 => omega
  case h_1 top htop =>
    have hmem : top ∈ ledger.map (·.version) := List.max?_mem htop
    obtain ⟨row, hrow, rfl⟩ := List.mem_map.mp hmem
    obtain ⟨u, hu, rfl⟩ := List.mem_map.mp (hledger.subset hrow)
    obtain ⟨after, hfull⟩ := hledger
    -- what comes after the recorded ones has a number above `u`'s, and `v`'s is not
    by_contra habsent
    have hvrow : v.row ∈ ledger ++ after := by
      rw [hfull]
      exact List.mem_map_of_mem hv
    have hafter : v.row ∈ after := by
      rcases List.mem_append.mp hvrow with hin | hin
      · exact absurd hin habsent
      · exact hin
    have hpair : ((ledger ++ after).map (·.version)).Pairwise (· < ·) := by
      rw [hfull]
      simpa [Increasing, Version.row, Function.comp_def] using h
    rw [List.map_append, List.pairwise_append] at hpair
    have hlt := hpair.2.2 u.row.version (List.mem_map_of_mem hrow) v.row.version
      (List.mem_map_of_mem hafter)
    simp only [Version.row] at hlt hhead
    omega

end Prefix

/-! ## What holds between any two statements -/

/-- The steps of a version that took effect, in the order they did. -/
def Database.stepsOf (db : Database σ) (number : Int) : List σ :=
  (db.effects.filter (·.1 = number)).map (·.2)

/-- How far a replica is: the versions before those left are recorded, and what it read of the
ledger is still there. -/
structure Behind (db : Database σ) (chain rest : List (Version σ)) (recorded : List Recorded) :
    Prop where
  before : ∃ before, chain = before ++ rest ∧ ∀ u ∈ before, u.row ∈ db.ledger
  read : recorded ⊆ db.ledger

theorem Behind.mono {db db' : Database σ} {chain rest : List (Version σ)}
    {recorded : List Recorded} (h : Behind db chain rest recorded)
    (hrows : db.ledger ⊆ db'.ledger) : Behind db' chain rest recorded := by
  obtain ⟨⟨before, hsplit, hbefore⟩, hread⟩ := h
  exact ⟨⟨before, hsplit, fun u hu => hrows (hbefore u hu)⟩, fun _ hr => hrows (hread hr)⟩

/-- What a replica may rely on where it stands. -/
def Placed (i : Nat) (db : Database σ) (chain : List (Version σ)) : Stage σ → Prop
  | .look | .askToMake | .read | .failing | .stopped false => True
  | .create | .commitMade => db.holder = some i
  | .loop rest recorded => Behind db chain rest recorded
  | .ask v rest recorded => Behind db chain (v :: rest) recorded
  | .find v rest recorded => db.holder = some i ∧ Behind db chain (v :: rest) recorded
  | .leave v rest recorded =>
    db.holder = some i ∧ Behind db chain (v :: rest) recorded ∧ v.row ∈ db.ledger
  | .steps v left done rest recorded =>
    db.holder = some i ∧ Behind db chain (v :: rest) recorded ∧ v.row ∉ db.ledger ∧
      (v.transactional = true → done ++ left = v.steps)
  | .settle v done rest recorded =>
    db.holder = some i ∧ Behind db chain (v :: rest) recorded ∧
      if v.transactional then v.row ∉ db.ledger ∧ done = v.steps else v.row ∈ db.ledger
  | .stopped true => ∀ v ∈ chain, v.row ∈ db.ledger

/-- The database: the ledger is a prefix of the chain, and a transactional version ran whole and
once if it is there and not at all if it is not. -/
structure Kept (full : List (Version σ)) (db : Database σ) : Prop where
  ledger : db.ledger <+: full.map Version.row
  effects : ∀ v ∈ full, v.transactional = true →
    db.stepsOf v.number = if v.row ∈ db.ledger then v.steps else []

/-- What a step of replica `i` leaves the others: rows stay, and nothing moves under a lock that
another holds. -/
structure Frame (i : Nat) (db db' : Database σ) : Prop where
  rows : db.ledger ⊆ db'.ledger
  held : ∀ j, j ≠ i → db.holder = some j → db'.holder = some j ∧ db'.ledger = db.ledger

namespace Frame

variable {i j : Nat} {db db' : Database σ}

theorem refl (i : Nat) (db : Database σ) : Frame i db db where
  rows := fun _ h => h
  held := fun _ _ h => ⟨h, rfl⟩

theorem lock {db' : Database σ} (h : db.lock i = some db') : Frame i db db' := by
  unfold Database.lock at h
  split_ifs at h with hnone
  cases h
  refine ⟨fun _ h => h, ?_⟩
  intro j _ hj
  rw [hnone] at hj
  cases hj

theorem unlock (i : Nat) (db : Database σ) : Frame i db (db.unlock i) := by
  unfold Database.unlock
  split_ifs with hmine
  · refine ⟨fun _ h => h, ?_⟩
    intro j hne hj
    rw [hmine] at hj
    cases hj
    exact absurd rfl hne
  · exact refl i db

/-- Whoever holds the lock may write. -/
theorem of_holder (hmine : db.holder = some i) (hrows : db.ledger ⊆ db'.ledger) :
    Frame i db db' := by
  refine ⟨hrows, ?_⟩
  intro j hne hj
  rw [hmine] at hj
  cases hj
  exact absurd rfl hne

/-- A replica that did nothing stands where it stood. -/
theorem placed (h : Frame i db db') (hne : j ≠ i) {chain : List (Version σ)} {stage : Stage σ}
    (hp : Placed j db chain stage) : Placed j db' chain stage := by
  match stage, hp with
  | .look, _ | .askToMake, _ | .read, _ | .failing, _ | .stopped false, _ => trivial
  | .create, hp | .commitMade, hp => exact (h.held j hne hp).1
  | .loop _ _, hp | .ask _ _ _, hp => exact hp.mono h.rows
  | .find _ _ _, hp => exact ⟨(h.held j hne hp.1).1, hp.2.mono h.rows⟩
  | .leave _ _ _, hp => exact ⟨(h.held j hne hp.1).1, hp.2.1.mono h.rows, h.rows hp.2.2⟩
  | .steps v left done rest recorded, hp =>
    obtain ⟨hmine, hb, habsent, hdone⟩ := hp
    obtain ⟨hholder, hledger⟩ := h.held j hne hmine
    refine ⟨hholder, hb.mono h.rows, ?_, hdone⟩
    rwa [hledger]
  | .settle v done rest recorded, hp =>
    obtain ⟨hmine, hb, hrow⟩ := hp
    obtain ⟨hholder, hledger⟩ := h.held j hne hmine
    refine ⟨hholder, hb.mono h.rows, ?_⟩
    rwa [hledger]
  | .stopped true, hp => exact fun v hv => h.rows (hp v hv)

end Frame

/-! ## One statement of one replica -/

section Step

variable {full chain : List (Version σ)} {i : Nat} {db : Database σ}

@[simp] theorem Database.unlock_ledger (db : Database σ) (i : Nat) :
    (db.unlock i).ledger = db.ledger := by
  unfold Database.unlock
  split_ifs <;> rfl

@[simp] theorem Database.unlock_effects (db : Database σ) (i : Nat) :
    (db.unlock i).effects = db.effects := by
  unfold Database.unlock
  split_ifs <;> rfl

theorem Database.lock_some {db' : Database σ} (h : db.lock i = some db') :
    db' = { db with holder := some i } := by
  unfold Database.lock at h
  split_ifs at h
  cases h
  rfl

theorem Kept.congr {db' : Database σ} (h : Kept full db) (hledger : db'.ledger = db.ledger)
    (heffects : db'.effects = db.effects) : Kept full db' := by
  refine ⟨by rw [hledger]; exact h.ledger, ?_⟩
  intro v hv ht
  simpa only [Database.stepsOf, hledger, heffects] using h.effects v hv ht

theorem Behind.mem {v : Version σ} {rest : List (Version σ)} {recorded : List Recorded}
    (h : Behind db chain (v :: rest) recorded) (hchain : chain <+: full) : v ∈ full := by
  obtain ⟨before, rfl, _⟩ := h.before
  exact hchain.subset (by simp)

/-- A recorded version is behind the replica. -/
theorem Behind.tail {v : Version σ} {rest : List (Version σ)} {recorded : List Recorded}
    (h : Behind db chain (v :: rest) recorded) (hrow : v.row ∈ db.ledger) :
    Behind db chain rest recorded := by
  obtain ⟨⟨before, hsplit, hbefore⟩, hread⟩ := h
  refine ⟨⟨before ++ [v], by simp [hsplit], ?_⟩, hread⟩
  intro u hu
  rcases List.mem_append.mp hu with hu | hu
  · exact hbefore u hu
  · rw [List.mem_singleton.mp hu]
    exact hrow

theorem Behind.append_row_prefix {v : Version σ} {rest : List (Version σ)}
    {recorded : List Recorded} (h : Behind db chain (v :: rest) recorded)
    (hinc : Increasing full) (hchain : chain <+: full) (hledger : db.ledger <+: full.map Version.row)
    (habsent : v.row ∉ db.ledger) : db.ledger ++ [v.row] <+: full.map Version.row := by
  obtain ⟨before, rfl, hbefore⟩ := h.before
  have hpre : before ++ [v] <+: full := by
    have hshort : before ++ [v] <+: before ++ v :: rest := by
      simp [List.prefix_append_right_inj]
    exact hshort.trans hchain
  exact Sql.append_row_prefix hinc hledger hpre hbefore habsent

/-- A step outside a transaction is of no transactional version. -/
theorem Kept.outside (h : Kept full db) (hinc : Increasing full) {v : Version σ} (hv : v ∈ full)
    (houtside : v.transactional = false) (s : σ) :
    Kept full { db with effects := db.effects ++ [(v.number, s)] } := by
  refine ⟨h.ledger, ?_⟩
  intro u hu ht
  have hne : v.number ≠ u.number := by
    intro hnum
    have huv : v = u := hinc.eq_of_number hv hu hnum
    rw [huv, ht] at houtside
    cases houtside
  have hsame := h.effects u hu ht
  simpa [Database.stepsOf, List.filter_append, hne] using hsame

theorem row_mem_append_iff (hinc : Increasing full) {u v : Version σ} (hu : u ∈ full)
    (hv : v ∈ full) (hne : u ≠ v) {ledger : List Recorded} :
    u.row ∈ ledger ++ [v.row] ↔ u.row ∈ ledger := by
  have hrow : u.row ≠ v.row := by
    intro heq
    have hnum : u.number = v.number := congrArg Recorded.version heq
    exact hne (hinc.eq_of_number hu hv hnum)
  simp [hrow]

/-- The row of a version outside a transaction, after the last of its steps. -/
theorem Kept.record_outside (h : Kept full db) (hinc : Increasing full) {v : Version σ}
    (hv : v ∈ full) (houtside : v.transactional = false)
    (hahead : db.ledger ++ [v.row] <+: full.map Version.row) :
    Kept full { db with ledger := db.ledger ++ [v.row] } := by
  refine ⟨hahead, ?_⟩
  intro u hu ht
  have hne : u ≠ v := by
    rintro rfl
    rw [ht] at houtside
    cases houtside
  have hsame := h.effects u hu ht
  simp only [row_mem_append_iff hinc hu hv hne]
  exact hsame

/-- The commit: the steps and the row at once. -/
theorem Kept.commit (h : Kept full db) (hinc : Increasing full) {v : Version σ} (hv : v ∈ full)
    (htrans : v.transactional = true) (habsent : v.row ∉ db.ledger)
    (hahead : db.ledger ++ [v.row] <+: full.map Version.row) :
    Kept full { db with
      ledger := db.ledger ++ [v.row], effects := db.effects ++ v.steps.map (v.number, ·) } := by
  refine ⟨hahead, ?_⟩
  intro u hu ht
  have hsame := h.effects u hu ht
  by_cases huv : u = v
  · subst huv
    rw [if_neg habsent] at hsame
    have hnone : db.effects.filter (·.1 = u.number) = [] := by
      simpa [Database.stepsOf] using hsame
    simp [Database.stepsOf, List.filter_append, hnone, List.filter_map, Function.comp_def]
  · have hne : v.number ≠ u.number := fun hnum => huv (hinc.eq_of_number hv hu hnum).symm
    simp only [row_mem_append_iff hinc hu hv huv]
    simpa [Database.stepsOf, List.filter_append, List.filter_map, Function.comp_def, hne] using hsame

end Step

/-- What one statement of replica `i` leaves behind. -/
structure Stepped (full chain : List (Version σ)) (i : Nat) (db : Database σ)
    (out : Database σ × Stage σ) : Prop where
  kept : Kept full out.1
  frame : Frame i db out.1
  placed : Placed i out.1 chain out.2

namespace Stepped

variable {full chain : List (Version σ)} {i : Nat} {db : Database σ}

theorem same (hk : Kept full db) {stage : Stage σ} (hp : Placed i db chain stage) :
    Stepped full chain i db (db, stage) :=
  ⟨hk, Frame.refl i db, hp⟩

theorem unlock (hk : Kept full db) {stage : Stage σ}
    (hp : Placed i (db.unlock i) chain stage) : Stepped full chain i db (db.unlock i, stage) :=
  ⟨hk.congr (by simp) (by simp), Frame.unlock i db, hp⟩

theorem lock (hk : Kept full db) {stage : Stage σ} {db' : Database σ} (h : db.lock i = some db')
    (hp : Placed i db' chain stage) : Stepped full chain i db (db', stage) := by
  refine ⟨?_, Frame.lock h, hp⟩
  have heq := Database.lock_some h
  exact hk.congr (by rw [heq]) (by rw [heq])

end Stepped

section Step

variable {full : List (Version σ)} {i : Nat} {db : Database σ}

/-- A step of a version, or its row. -/
theorem steps_stepped (hinc : Increasing full) {chain : List (Version σ)} (hchain : chain <+: full)
    (hk : Kept full db) {v : Version σ} {left done : List σ} {rest : List (Version σ)}
    {recorded : List Recorded} (hp : Placed i db chain (.steps v left done rest recorded)) :
    Stepped full chain i db
      (Replica.go i db ⟨chain, .steps v left done rest recorded⟩) := by
  obtain ⟨hmine, hbehind, habsent, hdone⟩ := hp
  have hv : v ∈ full := hbehind.mem hchain
  cases left with
  | cons s left =>
    unfold Replica.go
    dsimp only
    split_ifs with htrans
    · refine .same hk ⟨hmine, hbehind, habsent, ?_⟩
      intro _
      simpa using hdone htrans
    · have houtside : v.transactional = false := by simpa using htrans
      refine ⟨hk.outside hinc hv houtside s, .of_holder hmine fun _ h => h, hmine, ?_, habsent, ?_⟩
      · exact hbehind.mono fun _ h => h
      · exact fun htrans' => absurd htrans' htrans
  | nil =>
    unfold Replica.go
    dsimp only
    split_ifs with htrans
    · refine .same hk ⟨hmine, hbehind, ?_⟩
      rw [if_pos htrans]
      exact ⟨habsent, by simpa using hdone htrans⟩
    · have houtside : v.transactional = false := by simpa using htrans
      have hahead := hbehind.append_row_prefix hinc hchain hk.ledger habsent
      have hrows : db.ledger ⊆ db.ledger ++ [v.row] := fun _ h => List.mem_append_left _ h
      refine ⟨hk.record_outside hinc hv houtside hahead, .of_holder hmine hrows, hmine, ?_, ?_⟩
      · exact hbehind.mono hrows
      · rw [if_neg htrans]
        simp

/-- The commit of a version, or the unlock after its row. -/
theorem settle_stepped (hinc : Increasing full) {chain : List (Version σ)}
    (hchain : chain <+: full) (hk : Kept full db) {v : Version σ} {done : List σ}
    {rest : List (Version σ)} {recorded : List Recorded}
    (hp : Placed i db chain (.settle v done rest recorded)) :
    Stepped full chain i db (Replica.go i db ⟨chain, .settle v done rest recorded⟩) := by
  obtain ⟨hmine, hbehind, hrow⟩ := hp
  have hv : v ∈ full := hbehind.mem hchain
  unfold Replica.go
  dsimp only
  by_cases htrans : v.transactional = true
  · rw [if_pos htrans] at hrow ⊢
    obtain ⟨habsent, rfl⟩ := hrow
    have hahead := hbehind.append_row_prefix hinc hchain hk.ledger habsent
    have hrows : db.ledger ⊆ db.ledger ++ [v.row] := fun _ h => List.mem_append_left _ h
    have hkept := hk.commit hinc hv htrans habsent hahead
    refine ⟨hkept.congr (by simp) (by simp), .of_holder hmine (by simpa using hrows), ?_⟩
    refine (hbehind.mono ?_).tail ?_
    · simpa using hrows
    · simp
  · rw [if_neg htrans] at hrow ⊢
    refine .unlock hk ?_
    refine (hbehind.mono ?_).tail ?_
    · simp
    · simpa using hrow

/-- Every statement of a replica keeps what holds between statements. -/
theorem go_stepped (hinc : Increasing full) (r : Replica σ) (hchain : r.chain <+: full)
    (hk : Kept full db) (hp : Placed i db r.chain r.stage) :
    Stepped full r.chain i db (r.go i db) := by
  obtain ⟨chain, stage⟩ := r
  dsimp only at hchain hp ⊢
  cases stage with
  | look =>
    unfold Replica.go
    dsimp only
    split_ifs
    · exact .same hk trivial
    · exact .same hk trivial
  | askToMake =>
    unfold Replica.go
    dsimp only
    split
    · exact .same hk trivial
    · rename_i db' hlock
      refine .lock hk hlock ?_
      rw [Database.lock_some hlock]
      exact rfl
  | create => exact .same hk hp
  | commitMade =>
    unfold Replica.go
    dsimp only
    refine ⟨hk.congr (by simp) (by simp), .of_holder hp (by simp), trivial⟩
  | read =>
    unfold Replica.go
    dsimp only
    split_ifs
    · exact .same hk trivial
    · exact .same hk ⟨⟨[], rfl, by simp⟩, fun _ h => h⟩
  | loop rest recorded =>
    cases rest with
    | nil =>
      refine .same hk ?_
      obtain ⟨before, hsplit, hbefore⟩ := hp.before
      rw [List.append_nil] at hsplit
      rw [hsplit]
      exact hbefore
    | cons v rest =>
      unfold Replica.go
      dsimp only
      split
      · exact .same hk hp
      all_goals
        rename_i hseen
        have hrow : v.row ∈ db.ledger :=
          row_mem_of_seen hinc hk.ledger (hp.mem hchain) hp.read (by rw [hseen]; simp)
        exact .same hk (hp.tail hrow)
  | ask v rest recorded =>
    unfold Replica.go
    dsimp only
    split
    · exact .same hk hp
    · rename_i db' hlock
      refine .lock hk hlock ?_
      rw [Database.lock_some hlock]
      exact ⟨rfl, hp.mono fun _ h => h⟩
  | find v rest recorded =>
    obtain ⟨hmine, hbehind⟩ := hp
    unfold Replica.go
    dsimp only
    split
    · rename_i row hfind
      have hrow := row_mem_of_findVersion hinc hk.ledger (hbehind.mem hchain) (fun _ h => h) hfind
      exact .same hk ⟨hmine, hbehind, hrow⟩
    · rename_i hfind
      exact .same hk ⟨hmine, hbehind, row_notMem_of_findVersion hfind, fun _ => rfl⟩
  | leave v rest recorded =>
    obtain ⟨_, hbehind, hrow⟩ := hp
    refine .unlock hk ?_
    refine (hbehind.mono ?_).tail ?_
    · simp
    · simpa using hrow
  | steps v left done rest recorded => exact steps_stepped hinc hchain hk hp
  | settle v done rest recorded => exact settle_stepped hinc hchain hk hp
  | failing => exact .unlock hk trivial
  | stopped ok => exact .same hk hp

end Step

/-! ## Whole runs -/

/-- What holds of the database and of every replica, between any two statements. -/
structure World.Sound (full : List (Version σ)) (w : World σ) : Prop where
  kept : Kept full w.db
  chains : ∀ (i : Nat) (r : Replica σ), w.replicas[i]? = some r → r.chain <+: full
  placed : ∀ (i : Nat) (r : Replica σ), w.replicas[i]? = some r → Placed i w.db r.chain r.stage

namespace World

variable {full : List (Version σ)} {w : World σ}

theorem start_sound (full : List (Version σ)) : (start : World σ).Sound full where
  kept := ⟨by simp [start, Database.empty], by simp [start, Database.empty, Database.stepsOf]⟩
  chains := by simp [start]
  placed := by simp [start]

/-- A statement of one replica, by what it leaves of the database and of that replica. -/
theorem Sound.put (h : w.Sound full) {i : Nat} {r : Replica σ} (hr : w.replicas[i]? = some r)
    {out : Database σ × Stage σ} (hout : Stepped full r.chain i w.db out) :
    (w.put out.1 i { r with stage := out.2 }).Sound full := by
  have hget : ∀ j s, (w.replicas.set i { r with stage := out.2 })[j]? = some s →
      j = i ∧ s = { r with stage := out.2 } ∨ j ≠ i ∧ w.replicas[j]? = some s := by
    intro j s hs
    rw [List.getElem?_set] at hs
    split_ifs at hs with hij hlt
    · cases hs
      exact .inl ⟨hij.symm, rfl⟩
    · exact .inr ⟨fun heq => hij heq.symm, hs⟩
  refine ⟨hout.kept, ?_, ?_⟩
  · intro j s hs
    rcases hget j s hs with ⟨rfl, rfl⟩ | ⟨_, hs⟩
    · exact h.chains j r hr
    · exact h.chains j s hs
  · intro j s hs
    rcases hget j s hs with ⟨rfl, rfl⟩ | ⟨hne, hs⟩
    · exact hout.placed
    · exact hout.frame.placed hne (h.placed j s hs)

theorem Sound.boot (h : w.Sound full) {chain : List (Version σ)} (hchain : chain <+: full) :
    (w.act (.boot chain)).Sound full := by
  have hget : ∀ (j : Nat) (s : Replica σ), (w.replicas ++ [⟨chain, .look⟩])[j]? = some s →
      w.replicas[j]? = some s ∨ s = ⟨chain, .look⟩ := by
    intro j s hs
    rw [List.getElem?_append] at hs
    split_ifs at hs
    · exact .inl hs
    · have hmem : s ∈ [(⟨chain, .look⟩ : Replica σ)] := List.mem_of_getElem? hs
      exact .inr (List.mem_singleton.mp hmem)
  refine ⟨h.kept, ?_, ?_⟩
  · intro j s hs
    rcases hget j s hs with hs | rfl
    · exact h.chains j s hs
    · exact hchain
  · intro j s hs
    rcases hget j s hs with hs | rfl
    · exact h.placed j s hs
    · trivial

theorem Sound.act (hinc : Increasing full) (h : w.Sound full) (a : Act σ)
    (hboot : ∀ chain, a = .boot chain → chain <+: full) : (w.act a).Sound full := by
  cases a with
  | boot chain => exact h.boot (hboot chain rfl)
  | go i =>
    unfold World.act
    dsimp only
    split
    · exact h
    · rename_i r hr
      exact h.put hr (go_stepped hinc r (h.chains i r hr) h.kept (h.placed i r hr))
  | fail i =>
    unfold World.act
    dsimp only
    split
    · exact h
    · rename_i r hr
      split
      · exact h
      · have hstep : Stepped full r.chain i w.db (w.db, .stopped false) := .same h.kept trivial
        exact h.put hr hstep
      · have hstep : Stepped full r.chain i w.db (w.db, .failing) := .same h.kept trivial
        exact h.put hr hstep
  | die i =>
    unfold World.act
    dsimp only
    split
    · exact h
    · rename_i r hr
      have hstep : Stepped full r.chain i w.db (w.db.unlock i, .stopped false) :=
        .unlock h.kept trivial
      exact h.put hr hstep

theorem Sound.run (hinc : Increasing full) (acts : List (Act σ)) (w : World σ)
    (h : w.Sound full) (hboot : ∀ chain, .boot chain ∈ acts → chain <+: full) :
    (w.run acts).Sound full := by
  induction acts generalizing w with
  | nil => exact h
  | cons a acts ih =>
    have hstep : (w.act a).Sound full := by
      refine h.act hinc a ?_
      intro chain heq
      exact hboot chain (by simp [heq])
    exact ih (w.act a) hstep fun chain hmem => hboot chain (List.mem_cons_of_mem a hmem)

/-- Replicas with prefixes of one chain, in any interleaving and with any of them failing or
dying anywhere: the ledger is a prefix of the chain with no version twice, every transactional
version took effect whole and once if it is recorded and not at all if it is not, a replica that
returned has its chain recorded, and a database that `expect` serves has every version up to the
one it wants. -/
theorem run_once_in_order (full : List (Version σ)) (hinc : Increasing full) (acts : List (Act σ))
    (hboot : ∀ chain, .boot chain ∈ acts → chain <+: full) :
    let w := (start : World σ).run acts
    w.db.ledger <+: full.map Version.row ∧
    (w.db.ledger.map (·.version)).Nodup ∧
    (∀ v ∈ full, v.transactional = true →
      w.db.stepsOf v.number = if v.row ∈ w.db.ledger then v.steps else []) ∧
    (∀ r ∈ w.replicas, r.stage = .stopped true → ∀ v ∈ r.chain, v.row ∈ w.db.ledger) ∧
    ∀ want, expect w.db.ledger want = true →
      ∀ v ∈ full, 0 < v.number → v.number ≤ want → v.row ∈ w.db.ledger := by
  intro w
  have hsound : w.Sound full := (start_sound full).run hinc acts start hboot
  refine ⟨hsound.kept.ledger, versions_nodup hinc hsound.kept.ledger, hsound.kept.effects, ?_, ?_⟩
  · intro r hr hstage
    obtain ⟨i, hi⟩ := List.mem_iff_getElem?.mp hr
    have hp := hsound.placed i r hi
    rw [hstage] at hp
    exact hp
  · intro want hexpect v hv hpos hwant
    exact recorded_of_expect hinc hsound.kept.ledger hexpect hv hpos hwant

/-- Two steps in a transaction, then one outside. -/
def twoVersions : List (Version Nat) := [⟨1, [1], [10, 11], true⟩, ⟨2, [2], [20], false⟩]

/-- Two replicas read the empty ledger. The first dies with a step of version 1 done, and the
second, built before version 2, runs it whole. -/
def twoReplicas : List (Act Nat) :=
  [.boot twoVersions, .boot (twoVersions.take 1)] ++
  [.go 0, .go 0, .go 0, .go 0, .go 1, .go 0, .go 1, .go 0, .go 1, .go 0, .go 1, .go 0, .go 0,
    .die 0] ++ List.replicate 7 (.go 1)

theorem run_once_in_order_two :
    ((start : World Nat).run twoReplicas).db.ledger <+: twoVersions.map Version.row ∧
    ((start : World Nat).run twoReplicas).db.stepsOf 1 = [10, 11] ∧
    expect ((start : World Nat).run twoReplicas).db.ledger 1 = true ∧
    expect ((start : World Nat).run twoReplicas).db.ledger 2 = false := by
  have hinc : Increasing twoVersions := by
    simp [Increasing, twoVersions]
  have hboot : ∀ chain, .boot chain ∈ twoReplicas → chain <+: twoVersions := by
    intro chain hmem
    simp only [twoReplicas, List.cons_append, List.nil_append, List.mem_cons,
      List.mem_replicate, reduceCtorEq, or_false, Act.boot.injEq, and_false] at hmem
    rcases hmem with rfl | rfl
    · exact List.prefix_refl _
    · exact List.take_prefix _ _
  obtain ⟨hledger, _, heffects, _, _⟩ := run_once_in_order twoVersions hinc twoReplicas hboot
  refine ⟨hledger, ?_, by decide, by decide⟩
  have hsteps := heffects ⟨1, [1], [10, 11], true⟩ (by simp [twoVersions]) rfl
  rwa [if_pos (by decide)] at hsteps

end World

end Nilo.Sql
