import Concentric.Failure
import Concentric.Files.Change

/-! Actions on files: each has an answer or a failure, and the files as they are afterwards, which
it may have changed even where it fails. -/

namespace Concentric

abbrev FileAction := ExceptT Failure (StateM FileTree)

namespace FileAction

def on {α : Type} (act : FileAction α) (t : FileTree) : Except Failure α × FileTree :=
  StateT.run (ExceptT.run act) t

/-- Changes the files, or fails and leaves them as they are. -/
def change (f : FileTree → Except FileFault FileTree) : FileAction Unit := fun t =>
  match f t with
  | .ok t' => (.ok (), t')
  | .error fault => (.error (.file fault), t)

/-- Changes the files even where it fails. -/
def attempt (f : FileTree → Except FileFault Unit × FileTree) : FileAction Unit := fun t =>
  ((f t).1.mapError .file, (f t).2)

def given {α : Type} (e : Except Failure α) : FileAction α := fun t => (e, t)

/-- How many directories above one may be missing. -/
def missingLimit : Nat := 970

/-- Makes a directory and the missing ones above it, its names given in reverse order; at most
`most` of those may be missing. A directory that is there already is taken as it is. -/
def makeDirectoriesFrom (root : String) (most : Nat) : List String → FileAction Unit
  | [] => pure ()
  | name :: above => fun t =>
    let p : Path := ⟨root, (name :: above).reverse⟩
    let finish (t : FileTree) : Except Failure Unit × FileTree :=
      match t.makeDirectory p with
      | .ok t => (.ok (), t)
      | .error fault => if t.isDirectory p then (.ok (), t) else (.error (.file fault), t)
    match t.makeDirectory p with
    | .error .notFound =>
      if most = 0 then (.error .nestedTooDeep, t)
      else match (makeDirectoriesFrom root (most - 1) above).on t with
        | (.ok (), t) => finish t
        | (.error f, t) => (.error f, t)
    | _ => finish t

def makeDirectories (p : Path) : FileAction Unit :=
  makeDirectoriesFrom p.root missingLimit p.names.reverse

def write (p : Path) (bs : List UInt8) : FileAction Unit := attempt (·.write p bs)

def rename (source target : Path) : FileAction Unit := change (·.rename source target)

def append (p : Path) (bs : List UInt8) : FileAction Unit := attempt (·.append p bs)

/-! ## What an action leaves -/

@[simp] theorem on_change (f : FileTree → Except FileFault FileTree) (t : FileTree) :
    (change f).on t = match f t with
      | .ok t' => (.ok (), t')
      | .error fault => (.error (.file fault), t) := rfl

@[simp] theorem on_attempt (f : FileTree → Except FileFault Unit × FileTree) (t : FileTree) :
    (attempt f).on t = ((f t).1.mapError .file, (f t).2) := rfl

@[simp] theorem on_given {α : Type} (e : Except Failure α) (t : FileTree) :
    (given e).on t = (e, t) := rfl

@[simp] theorem on_pure {α : Type} (a : α) (t : FileTree) :
    (pure a : FileAction α).on t = (.ok a, t) := rfl

theorem on_bind {α β : Type} (act : FileAction α) (next : α → FileAction β) (t : FileTree) :
    (act >>= next).on t = match act.on t with
      | (.ok a, t') => (next a).on t'
      | (.error f, t') => (.error f, t') := by
  have h : (act >>= next).on t = ExceptT.bindCont next (act.on t).1 (act.on t).2 := rfl
  rw [h]
  rcases act.on t with ⟨_ | _, _⟩ <;> rfl

end FileAction

end Concentric
