import Lazarus.Tides.Window

/-! The file the balances are kept in: what is in it, the steps by which a flush replaces it, and how
it is read back at startup. -/

namespace Lazarus.Tides

/-- Persisted window state. The maps are listed by name; the applied debits are written sorted and read
back as the set they are. -/
structure Meta where
  targetWork : Nat := 0
  lifetimeShares : Nat := 0
  lifetimeWork : Nat := 0
  carry : List (String × Nat) := []
  rebateOwed : Nat := 0
  lastSeen : List (String × Nat) := []
  holds : List (String × Hold) := []
  debt : List (String × Nat) := []
  appliedDebits : Finset String := ∅
  appliedDebitsTracked : Bool := false
deriving DecidableEq

/-- What a read of a file finds. A file that is there and cannot be read, or does not parse, gives only
the complaint. -/
inductive Stored where
  | missing
  | damaged (complaint : String)
  | whole (m : Meta)
deriving DecidableEq

/-- `window.json`, `window.json.bak` and `window.tmp`. -/
structure MetaFiles where
  path : Stored := .missing
  bak : Stored := .missing
  tmp : Stored := .missing
deriving DecidableEq

section Load

/-- A file that is not there is not an error. -/
def readMeta (name : String) : Stored → Except String (Option Meta)
  | .missing => .ok none
  | .damaged complaint => .error (name ++ ": " ++ complaint)
  | .whole m => .ok (some m)

/-- What is said of a damaged file with no whole copy beside it. -/
def notReplaced (complaint : String) : String :=
  complaint ++ ". This file holds the carry owed to miners, so it is not replaced with an empty one: " ++
    "restore it from a backup, or move it aside to start with no balances"

/-- Read the balances. A damaged file is never read as no balances: the previous flush's copy is used
if it is whole, and failing that Prime does not start. -/
def loadMeta (files : MetaFiles) : Except String Meta :=
  match readMeta "window.json" files.path with
  | .ok (some m) => .ok m
  | .ok none =>
    match readMeta "window.json.bak" files.bak with
    | .ok (some m) => .ok m
    | .ok none => .ok {}
    | .error complaint => .error complaint
  | .error complaint =>
    match readMeta "window.json.bak" files.bak with
    | .ok (some m) => .ok m
    | _ => .error (notReplaced complaint)

end Load

section Write

/-- The steps of `write_atomic`, each of which a crash may follow. -/
inductive WriteStep where
  | create
  | write
  | sync
  | removeBak
  | linkBak
  | rename
  | syncDir
deriving DecidableEq

/-- The order of the steps. -/
def writeSteps : List WriteStep := [.create, .write, .sync, .removeBak, .linkBak, .rename, .syncDir]

/-- What one step of writing `m` does to the directory. Removing and linking may fail, and the write
goes on. -/
def writeStep (m : Meta) (files : MetaFiles) : WriteStep → MetaFiles
  | .create => { files with tmp := .damaged "EOF while parsing a value at line 1 column 0" }
  | .write => { files with tmp := .whole m }
  | .sync => files
  | .removeBak => { files with bak := .missing }
  | .linkBak =>
    match files.path, files.bak with
    | .missing, _ => files
    | path, .missing => { files with bak := path }
    | _, _ => files
  | .rename =>
    match files.tmp with
    | .missing => files
    | tmp => { files with path := tmp, tmp := .missing }
  | .syncDir => files

/-- The directory after a crash that follows the first `done` steps of writing `m`. -/
def crashAfter (files : MetaFiles) (m : Meta) (done : Nat) : MetaFiles :=
  (writeSteps.take done).foldl (writeStep m) files

/-- Replace `window.json` with `m`. -/
def writeAtomic (files : MetaFiles) (m : Meta) : MetaFiles := writeSteps.foldl (writeStep m) files

private theorem writeAtomic_eq (files : MetaFiles) (m : Meta) :
    writeAtomic files m = { path := .whole m, bak := files.path, tmp := .missing } := by
  rcases files with ⟨path, bak, tmp⟩
  cases path with
  | missing => rfl
  | damaged complaint => rfl
  | whole old => rfl

theorem loadMeta_writeAtomic (files : MetaFiles) (m : Meta) : loadMeta (writeAtomic files m) = .ok m := by
  rw [writeAtomic_eq]
  rfl

end Write

section Crash

/-- What may be read back after a crash in the middle of a flush: the old balances or the new. -/
def Recovers (files : MetaFiles) (old new : Meta) (done : Nat) : Prop :=
  loadMeta (crashAfter files new done) = .ok old ∨ loadMeta (crashAfter files new done) = .ok new

instance (files : MetaFiles) (old new : Meta) (done : Nat) : Decidable (Recovers files old new done) :=
  inferInstanceAs (Decidable (_ ∨ _))

private theorem loadMeta_crash_early (files : MetaFiles) (m : Meta) {done : Nat} (early : done ≤ 3) :
    loadMeta (crashAfter files m done) = loadMeta files := by
  match done, early with
  | 0, _ => rfl
  | 1, _ => rfl
  | 2, _ => rfl
  | 3, _ => rfl

private theorem loadMeta_crash_late (files : MetaFiles) (m : Meta) {done : Nat} (late : 6 ≤ done) :
    loadMeta (crashAfter files m done) = .ok m := by
  have finished : crashAfter files m done = writeAtomic files m := by
    rcases Nat.lt_or_ge done 7 with six | past
    · have exactly : done = 6 := by omega
      subst exactly
      rfl
    · unfold crashAfter writeAtomic
      rw [List.take_of_length_le past]
  rw [finished, loadMeta_writeAtomic]

private theorem loadMeta_crash_between (files : MetaFiles) (m : Meta) :
    loadMeta (crashAfter files m 4) = loadMeta { path := files.path } ∧
      loadMeta (crashAfter files m 5) = loadMeta { path := files.path } := by
  rcases files with ⟨path, bak, tmp⟩
  cases path with
  | missing => exact ⟨rfl, rfl⟩
  | damaged complaint => exact ⟨rfl, rfl⟩
  | whole old => exact ⟨rfl, rfl⟩

/-- Whether a flush may be cut short at any step without losing the balances: what is read once the
copy has been removed decides it. -/
theorem recovers_iff_between {files : MetaFiles} {old new : Meta} (loaded : loadMeta files = .ok old) :
    (∀ done, Recovers files old new done) ↔
      loadMeta { path := files.path } = .ok old ∨ loadMeta { path := files.path } = .ok new := by
  obtain ⟨four, five⟩ := loadMeta_crash_between files new
  constructor
  · intro every
    have here := every 4
    unfold Recovers at here
    rwa [four] at here
  · intro between done
    unfold Recovers
    rcases Nat.lt_or_ge done 4 with early | later
    · left
      rw [loadMeta_crash_early files new (by omega), loaded]
    · rcases Nat.lt_or_ge done 6 with middle | late
      · have which : done = 4 ∨ done = 5 := by omega
        rcases which with rfl | rfl
        · rwa [four]
        · rwa [five]
      · right
        exact loadMeta_crash_late files new late

/-- A crash at any step of a flush leaves the old or the new balances to be read, exactly when
`window.json` is whole, or is missing with no copy beside it, or is missing and one of the two balances
is an empty ledger's. Otherwise the copy in `window.json.bak` is the only one, and it is removed first. -/
theorem crash_recovers_iff (files : MetaFiles) (old new : Meta) (loaded : loadMeta files = .ok old) :
    (∀ done, Recovers files old new done) ↔
      (∃ m, files.path = .whole m) ∨
        files.path = .missing ∧ (files.bak = .missing ∨ old = {} ∨ new = {}) := by
  rw [recovers_iff_between loaded]
  rcases files with ⟨path, bak, tmp⟩
  cases path with
  | whole m =>
    have same : m = old := Except.ok.inj loaded
    subst same
    exact ⟨fun _ => .inl ⟨m, rfl⟩, fun _ => .inl rfl⟩
  | damaged complaint =>
    constructor
    · intro between
      rcases between with here | here <;> cases here
    · rintro (⟨m, whole⟩ | ⟨missing, _⟩)
      · cases whole
      · cases missing
  | missing =>
    have empty : loadMeta { path := .missing } = .ok {} := rfl
    rw [empty, Except.ok.injEq, Except.ok.injEq]
    cases bak with
    | missing =>
      have fresh : ({} : Meta) = old := Except.ok.inj loaded
      exact ⟨fun _ => .inr ⟨rfl, .inl rfl⟩, fun _ => .inl fresh⟩
    | damaged complaint => cases loaded
    | whole m =>
      constructor
      · rintro (fresh | fresh)
        · exact .inr ⟨rfl, .inr (.inl fresh.symm)⟩
        · exact .inr ⟨rfl, .inr (.inr fresh.symm)⟩
      · rintro (⟨_, whole⟩ | ⟨_, gone | fresh | fresh⟩)
        · cases whole
        · cases gone
        · exact .inl fresh.symm
        · exact .inr fresh.symm

/-- The balances of the failing flush: 7000 sats owed, then 9000. -/
def sevenThousand : Meta := { carry := [("alice", 7000)] }

def nineThousand : Meta := { carry := [("alice", 9000)] }

theorem crash_recovers_iff_whole :
    loadMeta { path := .whole sevenThousand } = .ok sevenThousand ∧
      ∀ done, Recovers { path := .whole sevenThousand } sevenThousand nineThousand done :=
  ⟨rfl, (crash_recovers_iff _ sevenThousand nineThousand rfl).mpr (.inl ⟨sevenThousand, rfl⟩)⟩

/-- `window.json` is gone and Prime started from the copy. A flush that is cut short after it has
removed the copy leaves nothing, which is read as a new ledger; with a damaged `window.json` it leaves
Prime refusing to start. -/
theorem crash_loses_only_copy :
    loadMeta { bak := .whole sevenThousand } = .ok sevenThousand ∧
      loadMeta (crashAfter { bak := .whole sevenThousand } nineThousand 4) = .ok {} ∧
      ¬ Recovers { bak := .whole sevenThousand } sevenThousand nineThousand 4 ∧
      loadMeta { path := .damaged "EOF", bak := .whole sevenThousand } = .ok sevenThousand ∧
      ¬ Recovers { path := .damaged "EOF", bak := .whole sevenThousand } sevenThousand nineThousand 4 := by
  decide

end Crash

end Lazarus.Tides
