import Mathlib.Logic.Function.Basic

/-!
# A file system of directories and append-only files

Paths are lists of components, innermost first, so the parent of `c :: p` is
`p`. A `FileSystem` carries its well-formedness: the root is a directory and
whatever exists lies in a directory, so an orphan cannot be built.

The operations are the three a logging program needs: `createDirectory`, which
is silent when the directory is already there and fails when something else
is, `openAppend`, which creates a missing file, and `append`. What a file
holds is a list of elements of any type: characters, or whole lines tagged
with their writer.
-/

namespace Satf.Lib

/-- A path, innermost component first. -/
abbrev Path := List String

inductive Node (β : Type) where
  | dir
  | file (content : List β)

/-- Directories and files, each existing node inside an existing directory. -/
structure FileSystem (β : Type) where
  node : Path → Option (Node β)
  root : node [] = some .dir
  closed : ∀ c p, node (c :: p) ≠ none → node p = some .dir

namespace FileSystem

variable {β : Type}

/-- Nothing but the root. -/
def empty : FileSystem β where
  node p := if p = [] then some .dir else none
  root := rfl
  closed _ _ h := absurd rfl h

/-- The elements of a file; nothing where there is no file. -/
def content (fs : FileSystem β) (p : Path) : List β :=
  match fs.node p with
  | some (.file xs) => xs
  | _ => []

/-- Whether there is a directory at `p`. -/
def isDir (fs : FileSystem β) (p : Path) : Bool :=
  match fs.node p with
  | some .dir => true
  | _ => false

/-- Put a node into an existing directory, replacing no directory by a file. -/
def put (fs : FileSystem β) (c : String) (p : Path) (nd : Node β)
    (hp : fs.node p = some .dir) (hnd : nd = .dir ∨ fs.node (c :: p) ≠ some .dir) :
    FileSystem β where
  node := Function.update fs.node (c :: p) (some nd)
  root := by
    rw [Function.update_of_ne (by simp)]
    exact fs.root
  closed := by
    intro d q hq
    have hqdir : fs.node q = some .dir := by
      by_cases heq : d :: q = c :: p
      · rw [(List.cons.inj heq).2]
        exact hp
      · rw [Function.update_of_ne heq] at hq
        exact fs.closed d q hq
    by_cases hqc : q = c :: p
    · rw [hqc, Function.update_self]
      rcases hnd with hdir | hne
      · rw [hdir]
      · exact absurd (hqc ▸ hqdir) hne
    · rw [Function.update_of_ne hqc]
      exact hqdir

/-- `create_directory(p)`: whether it created the directory, or `none` where
it fails (no parent directory, or something else of that name). -/
def createDirectory (fs : FileSystem β) : Path → Option (FileSystem β × Bool)
  | [] => some (fs, false)
  | c :: p =>
    match fs.node (c :: p) with
    | some .dir => some (fs, false)
    | some (.file _) => none
    | none =>
      match hp : fs.node p with
      | some .dir => some (fs.put c p .dir hp (.inl rfl), true)
      | _ => none

/-- Opening a file for appending: creates it when it is missing, and leaves
everything as it is when it cannot be opened. -/
def openAppend (fs : FileSystem β) : Path → FileSystem β
  | [] => fs
  | c :: p =>
    match hc : fs.node (c :: p) with
    | some _ => fs
    | none =>
      match hp : fs.node p with
      | some .dir => fs.put c p (.file []) hp (.inr (by rw [hc]; simp))
      | _ => fs

/-- Appending to a file; a stream that could not be opened drops what is
written to it. -/
def append (fs : FileSystem β) : Path → List β → FileSystem β
  | [], _ => fs
  | c :: p, ys =>
    match hc : fs.node (c :: p) with
    | some (.file xs) =>
      fs.put c p (.file (xs ++ ys)) (fs.closed c p (by rw [hc]; simp)) (.inr (by rw [hc]; simp))
    | _ => fs

/-! ## What the operations do -/

@[simp] theorem put_node (fs : FileSystem β) (c : String) (p : Path) (nd : Node β)
    (hp : fs.node p = some .dir) (hnd : nd = .dir ∨ fs.node (c :: p) ≠ some .dir) :
    (fs.put c p nd hp hnd).node = Function.update fs.node (c :: p) (some nd) := rfl

theorem isDir_eq_true {fs : FileSystem β} {p : Path} :
    fs.isDir p = true ↔ fs.node p = some .dir := by
  unfold isDir
  split
  next h => simp [h]
  next h => exact ⟨fun hf => absurd hf (by simp), fun hd => absurd hd h⟩

/-- The directories depend on the nodes only. -/
theorem isDir_congr {fs fs' : FileSystem β} {p : Path} (h : fs'.node p = fs.node p) :
    fs'.isDir p = fs.isDir p := by
  simp only [isDir, h]

theorem content_of_file {fs : FileSystem β} {p : Path} {xs : List β}
    (h : fs.node p = some (.file xs)) : fs.content p = xs := by
  simp only [content, h]

theorem content_of_none {fs : FileSystem β} {p : Path} (h : fs.node p = none) :
    fs.content p = [] := by
  simp only [content, h]

/-- Everything a successful `create_directory` did: the directory is there,
nothing else changed, and it reports whether it was missing before. -/
theorem createDirectory_eq_some {fs fs' : FileSystem β} {p : Path} {created : Bool}
    (h : fs.createDirectory p = some (fs', created)) :
    fs'.node p = some .dir ∧ (∀ q, q ≠ p → fs'.node q = fs.node q) ∧
      (created = true ↔ fs.node p = none) ∧ (created = false ↔ fs.node p = some .dir) := by
  cases p with
  | nil =>
    simp only [createDirectory, Option.some.injEq, Prod.mk.injEq] at h
    obtain ⟨rfl, rfl⟩ := h
    simp [fs.root]
  | cons c p =>
    simp only [createDirectory] at h
    split at h
    next hd =>
      -- already a directory: silent
      simp only [Option.some.injEq, Prod.mk.injEq] at h
      obtain ⟨rfl, rfl⟩ := h
      simp [hd]
    next => exact absurd h (by simp)
    next hn =>
      split at h
      next hp =>
        -- free, and the parent is a directory: created
        simp only [Option.some.injEq, Prod.mk.injEq] at h
        obtain ⟨rfl, rfl⟩ := h
        refine ⟨by simp, ?_, by simp [hn], by simp [hn]⟩
        intro q hq
        rw [put_node, Function.update_of_ne hq]
      next => exact absurd h (by simp)

/-- It says that it created the directory exactly where there was none. -/
theorem createDirectory_created {fs fs' : FileSystem β} {p : Path} {created : Bool}
    (h : fs.createDirectory p = some (fs', created)) : created = !fs.isDir p := by
  obtain ⟨-, -, -, hold⟩ := createDirectory_eq_some h
  cases created with
  | true =>
    have hne : fs.isDir p ≠ true := fun hd => absurd (hold.mpr (isDir_eq_true.mp hd)) (by simp)
    simp [hne]
  | false => rw [isDir_eq_true.mpr (hold.mp rfl), Bool.not_true]

/-- Where the parent is a directory and nothing but a directory has the name,
`create_directory` succeeds. -/
theorem createDirectory_isSome {fs : FileSystem β} {c : String} {p : Path}
    (hp : fs.node p = some .dir) (hc : fs.node (c :: p) = none ∨ fs.node (c :: p) = some .dir) :
    ∃ fs' created, fs.createDirectory (c :: p) = some (fs', created) := by
  rcases hc with hn | hd
  · refine ⟨fs.put c p .dir hp (.inl rfl), true, ?_⟩
    simp only [createDirectory, hn]
    split
    next => rfl
    next hne => exact absurd hp hne
  · exact ⟨fs, false, by simp only [createDirectory, hd]⟩

/-- Opening for appending changes no contents and no other node. -/
theorem openAppend_node_of_ne (fs : FileSystem β) {p q : Path} (hq : q ≠ p) :
    (fs.openAppend p).node q = fs.node q := by
  cases p with
  | nil => rfl
  | cons c p =>
    rw [openAppend]
    split
    next => rfl
    next =>
      split
      next => rw [put_node, Function.update_of_ne hq]
      next => rfl

/-- In an existing directory, opening a missing or existing file yields that
file with its contents. -/
theorem openAppend_node_self {fs : FileSystem β} {c : String} {p : Path}
    (hp : fs.node p = some .dir)
    (hc : fs.node (c :: p) = none ∨ ∃ xs, fs.node (c :: p) = some (.file xs)) :
    (fs.openAppend (c :: p)).node (c :: p) = some (.file (fs.content (c :: p))) := by
  rcases hc with hn | ⟨xs, hx⟩
  · rw [openAppend]
    split
    next h => rw [hn] at h; exact absurd h (by simp)
    next =>
      split
      next => rw [put_node, Function.update_self, content_of_none hn]
      next hne => exact absurd hp hne
  · rw [openAppend]
    split
    next => rw [content_of_file hx, hx]
    next h => rw [hx] at h; exact absurd h (by simp)

theorem append_node_of_ne (fs : FileSystem β) {p q : Path} (ys : List β) (hq : q ≠ p) :
    (fs.append p ys).node q = fs.node q := by
  cases p with
  | nil => rfl
  | cons c p =>
    rw [append]
    split
    next => rw [put_node, Function.update_of_ne hq]
    next => rfl

theorem append_node_self {fs : FileSystem β} {p : Path} {xs : List β} (ys : List β)
    (hx : fs.node p = some (.file xs)) :
    (fs.append p ys).node p = some (.file (xs ++ ys)) := by
  cases p with
  | nil => rw [fs.root] at hx; exact absurd hx (by simp)
  | cons c p =>
    rw [append]
    split
    next zs hz =>
      rw [hx] at hz
      simp only [Option.some.injEq, Node.file.injEq] at hz
      rw [put_node, Function.update_self, hz]
    next hne => exact absurd hx (hne xs)

/-- Contents depend on the node only. -/
theorem content_congr {fs fs' : FileSystem β} {p : Path} (h : fs'.node p = fs.node p) :
    fs'.content p = fs.content p := by
  simp only [content, h]

/-! ## What the operations keep -/

/-- Directories stay. -/
def KeepsDirs (fs fs' : FileSystem β) : Prop := ∀ p, fs.node p = some .dir → fs'.node p = some .dir

/-- A directory has no contents of its own, so creating one changes none. -/
theorem createDirectory_content {fs fs' : FileSystem β} {p : Path} {created : Bool}
    (h : fs.createDirectory p = some (fs', created)) (q : Path) :
    fs'.content q = fs.content q := by
  obtain ⟨hdir, hother, hnew, hold⟩ := createDirectory_eq_some h
  by_cases hq : q = p
  · subst hq
    cases created with
    | true => simp only [content, hdir, hnew.mp rfl]
    | false => simp only [content, hdir, hold.mp rfl]
  · exact content_congr (hother q hq)

theorem createDirectory_keepsDirs {fs fs' : FileSystem β} {p : Path} {created : Bool}
    (h : fs.createDirectory p = some (fs', created)) : fs.KeepsDirs fs' := by
  obtain ⟨hdir, hother, -, -⟩ := createDirectory_eq_some h
  intro q hq
  by_cases hqp : q = p
  · rw [hqp]
    exact hdir
  · rw [hother q hqp]
    exact hq

/-- Opening leaves what exists and adds at most an empty file. -/
theorem openAppend_node (fs : FileSystem β) (p : Path) :
    (fs.openAppend p).node p = fs.node p ∨
      fs.node p = none ∧ (fs.openAppend p).node p = some (.file []) := by
  cases p with
  | nil => exact .inl rfl
  | cons c p =>
    rw [openAppend]
    split
    next => exact .inl rfl
    next hn =>
      split
      next => exact .inr ⟨hn, by rw [put_node, Function.update_self]⟩
      next => exact .inl rfl

theorem openAppend_content (fs : FileSystem β) (p q : Path) :
    (fs.openAppend p).content q = fs.content q := by
  by_cases hq : q = p
  · subst hq
    rcases openAppend_node fs q with h | ⟨hn, h⟩
    · exact content_congr h
    · rw [content_of_file h, content_of_none hn]
  · exact content_congr (openAppend_node_of_ne fs hq)

/-- A file system call on a file leaves the directories as they are. -/
theorem openAppend_isDir (fs : FileSystem β) (p q : Path) :
    (fs.openAppend p).isDir q = fs.isDir q := by
  by_cases hq : q = p
  · subst hq
    rcases openAppend_node fs q with h | ⟨hn, h⟩
    · exact isDir_congr h
    · simp only [isDir, h, hn]
  · exact isDir_congr (openAppend_node_of_ne fs hq)

theorem openAppend_keepsDirs (fs : FileSystem β) (p : Path) : fs.KeepsDirs (fs.openAppend p) := by
  intro q hdir
  by_cases hq : q = p
  · subst hq
    rcases openAppend_node fs q with h | ⟨hn, -⟩
    · rw [h, hdir]
    · rw [hdir] at hn
      exact absurd hn (by simp)
  · rw [openAppend_node_of_ne fs hq, hdir]

/-- Appending to what is not a file does nothing. -/
theorem append_eq_self {fs : FileSystem β} {p : Path} (ys : List β)
    (h : ∀ xs, fs.node p ≠ some (.file xs)) : fs.append p ys = fs := by
  cases p with
  | nil => rfl
  | cons c p =>
    rw [append]
    split
    next xs hx => exact absurd hx (h xs)
    next => rfl

/-- After an append, the contents are the old ones or the old ones and what
was appended. -/
theorem append_content (fs : FileSystem β) (p : Path) (ys : List β) :
    (fs.append p ys).content p = fs.content p ∨
      (fs.append p ys).content p = fs.content p ++ ys := by
  by_cases h : ∃ xs, fs.node p = some (.file xs)
  · obtain ⟨xs, hx⟩ := h
    right
    rw [content_of_file (append_node_self ys hx), content_of_file hx]
  · left
    rw [append_eq_self ys (fun xs hx => h ⟨xs, hx⟩)]

theorem append_isDir (fs : FileSystem β) (p q : Path) (ys : List β) :
    (fs.append p ys).isDir q = fs.isDir q := by
  by_cases hq : q = p
  · subst hq
    by_cases h : ∃ xs, fs.node q = some (.file xs)
    · obtain ⟨xs, hx⟩ := h
      simp only [isDir, append_node_self ys hx, hx]
    · rw [append_eq_self ys fun xs hx => h ⟨xs, hx⟩]
  · exact isDir_congr (append_node_of_ne fs ys hq)

theorem append_keepsDirs (fs : FileSystem β) (p : Path) (ys : List β) :
    fs.KeepsDirs (fs.append p ys) := by
  intro q hdir
  by_cases hq : q = p
  · subst hq
    rw [append_eq_self ys (fun xs hx => by rw [hdir] at hx; cases hx)]
    exact hdir
  · rw [append_node_of_ne fs ys hq, hdir]

/-- Nothing lies below what does not exist. -/
theorem node_append_none {fs : FileSystem β} {p : Path} (h : fs.node p = none) :
    ∀ q : Path, fs.node (q ++ p) = none := by
  intro q
  induction q with
  | nil => exact h
  | cons c q ih =>
    by_contra hne
    have hdir := fs.closed c (q ++ p) hne
    rw [ih] at hdir
    exact absurd hdir (by simp)

end FileSystem

end Satf.Lib
