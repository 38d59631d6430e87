import Mathlib

/-!
# Files

A file system as a map from paths to contents.  A file is replaced as a whole when its
new content is written under another name, which is then renamed.
-/

namespace Files

abbrev FileSystem (Path α : Type*) := Path → Option (List α)

namespace FileSystem

variable {Path α : Type*} [DecidableEq Path] (fs : FileSystem Path α)

/-- The file is created, or loses its content. -/
def truncate (p : Path) : FileSystem Path α := Function.update fs p (some [])

def append (p : Path) (data : List α) : FileSystem Path α :=
  Function.update fs p (some ((fs p).getD [] ++ data))

def remove (p : Path) : FileSystem Path α := Function.update fs p none

/-- In one step the file is at `q` and no longer at `p`. -/
def rename (p q : Path) : FileSystem Path α := Function.update (Function.update fs q (fs p)) p none

@[simp] theorem truncate_self (p : Path) : fs.truncate p p = some [] := Function.update_self _ _ _

@[simp] theorem append_self (p : Path) (data : List α) :
    fs.append p data p = some ((fs p).getD [] ++ data) := Function.update_self _ _ _

@[simp] theorem remove_self (p : Path) : fs.remove p p = none := Function.update_self _ _ _

@[simp] theorem rename_source (p q : Path) : fs.rename p q p = none := Function.update_self _ _ _

theorem rename_target {p q : Path} (h : q ≠ p) : fs.rename p q q = fs p := by
  rw [rename, Function.update_of_ne h, Function.update_self]

theorem rename_of_ne {p q r : Path} (hp : r ≠ p) (hq : r ≠ q) : fs.rename p q r = fs r := by
  rw [rename, Function.update_of_ne hp, Function.update_of_ne hq]

/-- The file systems differ at `p` at most. -/
def SameBut (p : Path) (fs fs' : FileSystem Path α) : Prop := ∀ q, q ≠ p → fs' q = fs q

variable {fs} {fs' : FileSystem Path α} {p : Path}

omit [DecidableEq Path] in
theorem SameBut.refl (p : Path) (fs : FileSystem Path α) : SameBut p fs fs := fun _ _ ↦ rfl

theorem SameBut.truncate (h : SameBut p fs fs') : SameBut p fs (fs'.truncate p) := by
  intro q hq
  rw [FileSystem.truncate, Function.update_of_ne hq]
  exact h q hq

theorem SameBut.append (h : SameBut p fs fs') (data : List α) :
    SameBut p fs (fs'.append p data) := by
  intro q hq
  rw [FileSystem.append, Function.update_of_ne hq]
  exact h q hq

theorem SameBut.remove (h : SameBut p fs fs') : SameBut p fs (fs'.remove p) := by
  intro q hq
  rw [FileSystem.remove, Function.update_of_ne hq]
  exact h q hq

end FileSystem

end Files
