import GoFilesystem.Client

/-!
# Disciplined adapters

How a discipline of the adapter's state is stated for a whole adapter and for
its clients.  A method uses its paths in one of five ways: it reads a path, it
writes an object to it, it removes, creates or modifies the object at it.  An
`Access` says with which paths each way is used; an adapter obeys a discipline
under an access if every method does that is called with such paths, and so
does every writer it opens.
-/

namespace GoFilesystem

open Go Method

/-- The paths that each way of using a path is used with. -/
structure Access where
  reads : Path → Prop := fun _ ↦ True
  writes : Path → Prop := fun _ ↦ True
  removes : Path → Prop := fun _ ↦ True
  creates : Path → Prop := fun _ ↦ True
  modifies : Path → Prop := fun _ ↦ True

/-- The access of an operation; a writer is closed by whoever opened it. -/
def Op.Allowed (A : Access) : Op → Prop
  | .openPath path | .openRange path _ | .list path _ | .stat path | .checksum path _
  | .visibility path | .temporaryURL path _ _ => A.reads path
  | .write path _ _ | .openWriter path _ => A.writes path
  | .closeWriter _ _ => True
  | .delete path => A.removes path
  | .copy source destination _ => A.reads source ∧ A.creates destination
  | .move source destination _ => A.removes source ∧ A.creates destination
  | .setMetadata path _ | .setVisibility path _ => A.modifies path

variable {σ : Type} {D : Call.Discipline σ} {A : Access}

def Writer.Obeys (D : Call.Discipline σ) (writer : Writer σ) : Prop :=
  ∀ source, Method.Obeys D (writer.consume source) fun _ ↦ True

def OpensObeying (D : Call.Discipline σ) : Except Err (Writer σ) → Prop
  | .error _ => True
  | .ok writer => writer.Obeys D

/-- The adapter obeys the discipline under an access. -/
structure Backend.Obeys (D : Call.Discipline σ) (A : Access) (b : Backend σ) : Prop where
  openPath : ∀ path, A.reads path → Method.Obeys D (b.openPath path) fun _ ↦ True
  openRange : ∀ path byteRange, A.reads path →
    Method.Obeys D (b.openRange path byteRange) fun _ ↦ True
  write : ∀ path source options, A.writes path →
    Method.Obeys D (b.write path source options) fun _ ↦ True
  openWriter : ∀ path options, A.writes path →
    Method.Obeys D (b.openWriter path options) (OpensObeying D)
  delete : ∀ path, A.removes path → Method.Obeys D (b.delete path) fun _ ↦ True
  list : ∀ path options, A.reads path → Method.Obeys D (b.list path options) fun _ ↦ True
  stat : ∀ path, A.reads path → Method.Obeys D (b.stat path) fun _ ↦ True
  copy : ∀ source destination options, A.reads source → A.creates destination →
    Method.Obeys D (b.copy source destination options) fun _ ↦ True
  move : ∀ source destination options, A.removes source → A.creates destination →
    Method.Obeys D (b.move source destination options) fun _ ↦ True
  setMetadata : ∀ path metadata, A.modifies path →
    Method.Obeys D (b.setMetadata path metadata) fun _ ↦ True
  checksum : ∀ path algorithm, A.reads path →
    Method.Obeys D (b.checksum path algorithm) fun _ ↦ True
  visibility : ∀ path, A.reads path → Method.Obeys D (b.visibility path) fun _ ↦ True
  setVisibility : ∀ path visibility, A.modifies path →
    Method.Obeys D (b.setVisibility path visibility) fun _ ↦ True
  temporaryURL : ∀ sign ∈ b.temporaryURL, ∀ path lifetime options, A.reads path →
    Method.Obeys D (sign path lifetime options) fun _ ↦ True

/-- Changing only paths whose names are in `K`. -/
def Access.within (K : Set Str) : Access where
  writes path := path.value ∈ K
  removes path := path.value ∈ K
  creates path := path.value ∈ K
  modifies path := path.value ∈ K

/-- What every adapter is expected to do: of the objects that `view` shows, a
method changes only those at the paths it is called with. -/
def Backend.Frames {ω : Type} (view : σ → Str → ω) (b : Backend σ) : Prop :=
  ∀ K, b.Obeys (.outside view K) (.within K)

def WritersObey (D : Call.Discipline σ) (writers : List (OpenWriter σ)) : Prop :=
  ∀ opened ∈ writers, opened.writer.Obeys D

theorem writersObey_nil : WritersObey D [] := by simp [WritersObey]

/-- Closing a writer runs its upload at most once. -/
theorem close_obeys {writers : List (OpenWriter σ)} (hw : WritersObey D writers) (handle : Nat)
    (chunks : List Str) :
    Method.Obeys D (Client.close writers handle chunks) fun r ↦ WritersObey D r.2 := by
  unfold Client.close
  split
  · exact .pure hw
  · rename_i opened hopened
    have hobeys := hw opened (List.mem_of_getElem? hopened)
    split
    · exact .pure hw
    · refine (hobeys _).bind fun err _ ↦ Call.Obeys.pure ?_
      intro opened' hmem
      rcases List.mem_or_eq_of_mem_set hmem with hmem | rfl
      · exact hw opened' hmem
      · exact hobeys

/-- An operation of a client obeys the discipline of its adapter. -/
theorem call_obeys {b : Backend σ} (hb : b.Obeys D A) {writers : List (OpenWriter σ)}
    (hw : WritersObey D writers) {op : Op} (hop : op.Allowed A) :
    Method.Obeys D (Client.call b writers op) fun r ↦ WritersObey D r.2 := by
  cases op with
  | openPath path => exact (hb.openPath path hop).bind fun _ _ ↦ .pure hw
  | openRange path byteRange => exact (hb.openRange path byteRange hop).bind fun _ _ ↦ .pure hw
  | write path source options =>
      exact (hb.write path source options hop).bind fun _ _ ↦ .pure hw
  | openWriter path options =>
      refine (hb.openWriter path options hop).bind fun r hr ↦ ?_
      cases r with
      | error err => exact .pure hw
      | ok writer =>
          refine Call.Obeys.pure ?_
          intro opened hmem
          rcases List.mem_append.mp hmem with hmem | hmem
          · exact hw opened hmem
          · rw [List.mem_singleton.mp hmem]
            exact hr
  | closeWriter handle chunks => exact close_obeys hw handle chunks
  | delete path => exact (hb.delete path hop).bind fun _ _ ↦ .pure hw
  | list directory options => exact (hb.list directory options hop).bind fun _ _ ↦ .pure hw
  | stat path => exact (hb.stat path hop).bind fun _ _ ↦ .pure hw
  | copy source destination options =>
      exact (hb.copy source destination options hop.1 hop.2).bind fun _ _ ↦ .pure hw
  | move source destination options =>
      exact (hb.move source destination options hop.1 hop.2).bind fun _ _ ↦ .pure hw
  | setMetadata path metadata => exact (hb.setMetadata path metadata hop).bind fun _ _ ↦ .pure hw
  | checksum path algorithm => exact (hb.checksum path algorithm hop).bind fun _ _ ↦ .pure hw
  | visibility path => exact (hb.visibility path hop).bind fun _ _ ↦ .pure hw
  | setVisibility path visibility =>
      exact (hb.setVisibility path visibility hop).bind fun _ _ ↦ .pure hw
  | temporaryURL path lifetime options =>
      dsimp only [Client.call]
      cases hsign : b.temporaryURL with
      | none => exact .pure hw
      | some sign => exact (hb.temporaryURL sign hsign path _ _ hop).bind fun _ _ ↦ .pure hw

end GoFilesystem
