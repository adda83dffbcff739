import GoFilesystem.Go.Call
import GoFilesystem.Go.PathName

/-!
# The package `io/fs`

The names that file systems accept (`ValidPath`), and the traversal of a file
system (`WalkDir`).

`WalkDir` hands every file to a callback.  The callback here records what it is
called with and returns the error it is given, so that the walk stops at the
first error; what is recorded is the result.  The recursion is bounded by a
depth, and a walk that exceeds it has no result.
-/

namespace GoFilesystem.Go

/-! ## Names -/

/-- `utf8.ValidString` of a string whose first `skip` bytes belong to a rune
already decoded.  A rune of one byte that is not ASCII is an error. -/
def validStringFrom : Nat → Str → Bool
  | _, [] => true
  | 0, b :: s =>
    (b < 0x80 || (decodeRune b s).2 != 0) && validStringFrom (decodeRune b s).2 s
  | skip + 1, _ :: s => validStringFrom skip s

/-- `utf8.ValidString`. -/
def validString (s : Str) : Bool := validStringFrom 0 s

/-- `fs.ValidPath`. -/
def validPath (name : Str) : Bool :=
  validString name && (name == PathName.current || (name.splitOn slash).all fun element ↦
    !(element == [] || element == PathName.current || element == PathName.parent))

/-- A rune does not continue past a slash. -/
theorem decodeRune_append_slash (b : UInt8) (s t : Str) :
    decodeRune b (s ++ slash :: t) = decodeRune b s := by
  unfold decodeRune
  split
  · rfl
  · cases hl : leadInfo b with
    | none => rfl
    | some info =>
        obtain ⟨width, lo, hi⟩ := info
        have hlo : ¬lo ≤ slash := by
          have hbound := (leadInfo_eq_some hl).2.1
          rw [UInt8.le_iff_toNat_le]
          simp only [slash, UInt8.reduceToNat]
          omega
        have hcontinuation : isContinuation slash = false := by decide
        rcases width with _ | _ | _ | _ | _ | width
        · rfl
        · rfl
        · rcases s with _ | ⟨x, s⟩
          · simp [hlo]
          · rfl
        · rcases s with _ | ⟨x, _ | ⟨y, s⟩⟩
          · cases t <;> simp [hlo]
          · simp [hcontinuation]
          · rfl
        · rcases s with _ | ⟨x, _ | ⟨y, _ | ⟨z, s⟩⟩⟩
          · rcases t with _ | ⟨y, _ | ⟨z, t⟩⟩ <;> simp [hlo]
          · cases t <;> simp [hcontinuation]
          · simp [hcontinuation]
          · rfl
        · rfl

/-- A rune takes its bytes from the string. -/
theorem decodeRune_le_length (b : UInt8) (s : Str) : (decodeRune b s).2 ≤ s.length := by
  unfold decodeRune
  split
  · exact Nat.zero_le _
  · split <;> try split
    all_goals simp

theorem validStringFrom_of_append {skip : Nat} {s t : Str} (hskip : skip ≤ s.length)
    (h : validStringFrom skip (s ++ slash :: t) = true) : validStringFrom skip s = true := by
  induction s generalizing skip with
  | nil => rfl
  | cons b s ih =>
      cases skip with
      | zero =>
          rw [List.cons_append, validStringFrom, decodeRune_append_slash, Bool.and_eq_true] at h
          rw [validStringFrom, Bool.and_eq_true]
          exact ⟨h.1, ih (decodeRune_le_length b s) h.2⟩
      | succ skip => exact ih (Nat.le_of_succ_le_succ hskip) h

/-! ## Traversal -/

/-- A file system that can be walked: entries and infos are one type here. -/
structure WalkFS (E σ ε ι : Type) where
  stat : Str → Call E σ (Except ι ε)
  readDir : Str → Call E σ (Except ι (List ε))
  name : ε → Str
  isDir : ε → Bool

namespace WalkFS

variable {E σ ε ι : Type}

/-- The loop of `walkDir` over the entries of a directory. -/
def walkEach (fsys : WalkFS E σ ε ι) (walk : Str → ε → Call E σ (Except ι (List (Str × ε))))
    (name : Str) : List ε → Call E σ (Except ι (List (Str × ε)))
  | [] => return .ok []
  | d1 :: dirs => do
    match ← walk (PathName.join [name, fsys.name d1]) d1 with
    | .error err => return .error err
    | .ok visits =>
      match ← fsys.walkEach walk name dirs with
      | .error err => return .error err
      | .ok rest => return .ok (visits ++ rest)

/-- `walkDir`, to a depth. -/
def walkDir (fsys : WalkFS E σ ε ι) : Nat → Str → ε → Call E σ (Except ι (List (Str × ε)))
  | 0, _, _ => Call.panic
  | depth + 1, name, d =>
    if fsys.isDir d then do
      match ← fsys.readDir name with
      | .error err => return .error err
      | .ok dirs =>
        match ← fsys.walkEach (fsys.walkDir depth) name dirs with
        | .error err => return .error err
        | .ok visits => return .ok ((name, d) :: visits)
    else
      return .ok [(name, d)]

/-- `fs.WalkDir`, to a depth. -/
def walk (fsys : WalkFS E σ ε ι) (depth : Nat) (root : Str) :
    Call E σ (Except ι (List (Str × ε))) := do
  match ← fsys.stat root with
  | .error err => return .error err
  | .ok info => fsys.walkDir depth root info

end WalkFS

end GoFilesystem.Go
