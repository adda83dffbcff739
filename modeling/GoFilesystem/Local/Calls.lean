import GoFilesystem.Local.Names
import GoFilesystem.Local.Protocol

/-!
# The calls keep to the protocol

Each program of the adapter issues only permitted commands, with what is known of
its temporary file at every point.  A `Write` returns a nil error only after the
file has its name, an error only if some step failed or the name was taken, and
it leaves its temporary file behind only if every attempt to remove it failed.
-/

namespace GoFilesystem.Local

open Go Conc Posix

variable {w : World} {p : Pool w} {s₀ s : State} {n : Nat} {q : Progress} {L : State → Prop}
  {ctx : Ctx} {path : Path} {options : OverwriteOptions}

/-- The progress of a call after a step that may have failed. -/
def Progress.note (q : Progress) (failed : Bool) : Progress :=
  { q with failed := q.failed || failed }

@[simp] theorem Progress.note_false (q : Progress) : q.note false = q := by
  unfold Progress.note
  rw [Bool.or_false]

/-! ## Checks and directories -/

theorem Owned.ctxErr (h : Owned p n L) (ctx : Ctx) :
    (protocol p s₀).Triple n (perform (.ctxErr ctx)) (At n q L) fun r ↦ At n (q.note r.isSome) L :=
  h.steady (.ctxErr ctx) rfl fun _ ↦ trivial

theorem link_of_lstat {s s' : State} {name : Str} {info : Info}
    (h : apply w n (.lstat name) (.ok info) s = some s') : info.link = false := by
  obtain ⟨s₁, hact, -⟩ := Option.map_eq_some_iff.mp h
  dsimp only [act] at hact
  cases hstat : s.stat name with
  | error e =>
      rw [hstat] at hact
      exact nomatch hact
  | ok node =>
      rw [hstat] at hact
      obtain ⟨hdescribes, -⟩ := Option.ite_none_right_eq_some.mp hact
      cases node with
      | dir => simp_all [describes]
      | file ino => simp_all [describes]

/-- There are no symbolic links. -/
theorem Owned.lstat (h : Owned p n L) (name : Str) :
    (protocol p s₀).Triple n (perform (.lstat name)) (At n q L) fun r s ↦
      (∀ info, r = .ok info → info.link = false) ∧ At n (q.after (.lstat name) r) L s := by
  have hK : ∀ r : Except Err Info,
      Owned p n fun s ↦ (∀ info, r = .ok info → info.link = false) ∧ L s :=
    fun r s s' hkept hl ↦ ⟨hl.1, h s s' hkept hl.2⟩
  refine (step (.lstat name) hK (fun _ _ _ ↦ trivial) ?_).conseq (fun _ _ hl ↦ hl)
    fun r s _ hq ↦ ⟨hq.2.1, hq.1, hq.2.2⟩
  intro s r s' _ hl happly
  refine ⟨?_, h s s' (kept_of_steady rfl happly) hl.2⟩
  rintro info rfl
  exact link_of_lstat happly

theorem Owned.checkSymlinksFrom (h : Owned p n L) (path : Path) (names : List Str) :
    (protocol p s₀).Triple n (checkSymlinksFrom path names) (At n q L)
      fun r ↦ At n (q.note r.isSome) L := by
  induction names with
  | nil => exact .ret fun _ _ hl ↦ by simpa using hl
  | cons name names ih =>
      refine .bind (h.lstat name) fun r ↦ .of_fact fun hlink ↦ ?_
      cases r with
      | error err =>
          refine .ret fun s _ hl ↦ ?_
          cases hexist : err.is .notExist <;> simp_all [Progress.after, Cmd.fails, Progress.note]
      | ok info =>
          dsimp only
          rw [hlink info rfl, if_neg Bool.false_ne_true]
          refine ih.pre fun _ _ hl ↦ ?_
          simpa [Progress.after, Cmd.fails] using hl

/-- `checkSymlinks` reports only errors of `Lstat`: there are no symbolic links. -/
theorem Owned.checkSymlinks (h : Owned p n L) (a : Adapter) (path : Path) (includeFinal : Bool) :
    (protocol p s₀).Triple n (checkSymlinks a path includeFinal) (At n q L)
      fun r ↦ At n (q.note r.isSome) L := by
  unfold Local.checkSymlinks
  split
  · exact .ret fun _ _ hl ↦ by simpa using hl
  · exact h.checkSymlinksFrom path _

/-- What is known after the check that a path is absent. -/
def Absent (n : Nat) (q : Progress) (L : State → Prop) (present : Err) : Option Err → State → Prop
  | none => At n q L
  | some err => fun s ↦ (err = present ∧ At n q L s) ∨ At n (q.note true) L s

theorem Owned.requireAbsent (h : Owned p n L) (path : Path) (present : Err) :
    (protocol p s₀).Triple n (requireAbsent path present) (At n q L) (Absent n q L present) := by
  refine .bind (h.steady (.stat path.value) rfl fun _ ↦ trivial) fun r ↦ ?_
  cases r with
  | ok info =>
      refine .ret fun s _ hl ↦ .inl ⟨rfl, ?_⟩
      simpa [Progress.after, Cmd.fails] using hl
  | error err =>
      refine .ret fun s _ hl ↦ ?_
      cases hexist : err.is .notExist <;>
        simp_all [Progress.after, Cmd.fails, Progress.note, Absent]

theorem Owned.mkdirAllFrom (h : Owned p n L) {names : List Str}
    (hnames : ∀ name ∈ names, ∃ path ∈ (p.calls n).paths, name ∈ ancestors path.value) :
    (protocol p s₀).Triple n (mkdirAllFrom names) (At n q L) fun r ↦ At n (q.note r.isSome) L := by
  induction names with
  | nil => exact .ret fun _ _ hl ↦ by simpa using hl
  | cons name names ih =>
      refine .bind (h.steady (.mkdir name _) rfl fun _ ↦ hnames name List.mem_cons_self) fun r ↦ ?_
      cases r with
      | some err => exact .keep rfl
      | none =>
          refine (ih fun x hx ↦ hnames x (List.mem_cons_of_mem _ hx)).pre fun _ _ hl ↦ ?_
          simpa [Progress.after, Cmd.fails] using hl

/-- The directories above a path that the caller gave. -/
theorem Owned.mkdirParents (h : Owned p n L) (hpath : path ∈ (p.calls n).paths) :
    (protocol p s₀).Triple n (mkdirParents (PathName.dir path.value)) (At n q L)
      fun r ↦ At n (q.note r.isSome) L := by
  unfold Local.mkdirParents
  split
  · exact .ret fun _ _ hl ↦ by simpa using hl
  · rename_i hdir
    have hform : NormalForm path.value := by
      refine path.canonical.resolve_left fun hroot ↦ hdir ?_
      rw [hroot]
      rfl
    exact h.mkdirAllFrom fun name hname ↦ ⟨path, hpath, mem_ancestors_of_mkdir hform hdir hname⟩

/-- `Stat` leaves everything alone, whether or not it fails. -/
theorem Owned.stat (h : Owned p n L) (a : Adapter) (ctx : Ctx) (path : Path) :
    (protocol p s₀).Triple n (stat a ctx path) (At n q L) fun _ s ↦ ∃ b, At n (q.note b) L s := by
  refine .check (h.ctxErr ctx) (fun _ ↦ .ret fun _ _ hl ↦ ⟨true, hl⟩) ?_
  rw [Option.isSome_none, Progress.note_false]
  refine .check (h.checkSymlinks a path true) (fun _ ↦ .ret fun _ _ hl ↦ ⟨true, hl⟩) ?_
  rw [Option.isSome_none, Progress.note_false]
  refine .bind (h.steady (.stat _) rfl fun _ ↦ trivial) fun r ↦ ?_
  cases r with
  | error err => exact .ret fun _ _ hl ↦ ⟨_, hl⟩
  | ok info => exact .ret fun _ _ hl ↦ ⟨_, hl⟩

theorem stream_of_openFile {s s' : State} {name : Str}
    (h : apply w n (.openFile name ctx) none s = some s') :
    s'.author = s.author ∧ (s'.streams n).received = [] ∧ (s'.streams n).ended = false := by
  obtain ⟨s₁, heffect, rfl⟩ := effect h
  cases heffect with
  | quiet hquiet => exact nomatch hquiet
  | openDir hstat => simp
  | openFile hstat => simp

/-- `Open`, with what is known when the stream is open. -/
theorem Owned.openStream {K : State → Prop} (h : Owned p n L) (hK : Owned p n K) (a : Adapter)
    (ctx : Ctx) (hpath : path ∈ (p.calls n).paths)
    (hwrite : ∀ ctx path options, p.calls n ≠ .write ctx path options)
    (hunopened : ∀ s, L s → (s.streams n).opened = false)
    (hopened : ∀ s s', L s → s'.author = s.author → (s'.streams n).received = [] →
      (s'.streams n).ended = false → K s') :
    (protocol p s₀).Triple n (openStream a ctx path) (At n q L) fun r ↦
      if r = none then At n q K else At n (q.note true) L := by
  refine .check (h.ctxErr ctx) (fun _ ↦ .keep rfl) ?_
  rw [Option.isSome_none, Progress.note_false]
  refine .check (h.checkSymlinks a path true) (fun _ ↦ .keep rfl) ?_
  rw [Option.isSome_none, Progress.note_false]
  have hif : ∀ r : Option Err, Owned p n (if r = none then K else L) := by
    intro r
    split
    · exact hK
    · exact h
  refine .check (step (.openFile path.value ctx) hif ?_ ?_) (fun _ ↦ .keep rfl) ?_
  · intro s _ hl
    exact ⟨⟨path, hpath, rfl⟩, hwrite, hunopened s hl.2⟩
  · intro s r s' _ hl happly
    cases r with
    | some err => exact h s s' (kept_of_quiet rfl happly) hl.2
    | none =>
        obtain ⟨hauthor, hreceived, hended⟩ := stream_of_openFile happly
        exact hopened s s' hl.2 hauthor hreceived hended
  · exact .ret fun _ _ hl ↦ by simpa [Progress.after, Cmd.fails] using hl

/-! ## Filling the temporary file -/

section Write

variable {temp : Str} {ino : Nat} {source : Prog sig (Str × Option Err)}
  (htemp : temporary w p.calls n = some temp)

/-- Nothing written yet, and nothing read. -/
structure Unwritten (n : Nat) (s : State) : Prop where
  author : ∀ ino, s.author ino ≠ some n
  received : (s.streams n).received = []
  ended : (s.streams n).ended = false

/-- The temporary file holds what the source has returned, apart from some bytes
still to be written. -/
structure Filling (n : Nat) (temp : Str) (ino : Nat) (rest : Str) (ended : Bool) (s : State) :
    Prop where
  lookup : s.tree.lookup temp = some (.file ino)
  author : s.author ino = some n
  data : s.data ino ++ rest = (s.streams n).received
  ended : (s.streams n).ended = ended

structure Holding (n : Nat) (temp : Str) (ino : Nat) (s : State) : Prop where
  lookup : s.tree.lookup temp = some (.file ino)
  author : s.author ino = some n

include htemp

theorem ne_openStream (ctx : Ctx) (path : Path) : p.calls n ≠ .openStream ctx path := by
  intro heq
  unfold temporary at htemp
  rw [heq] at htemp
  exact nomatch htemp

theorem owned_holding : Owned p n (Holding n temp ino) := by
  intro s s' hkept hl
  exact ⟨(hkept.temp temp ino htemp).mpr hl.lookup, (hkept.author ino).mpr hl.author⟩

theorem owned_filling {rest : Str} {ended : Bool} :
    Owned p n (Filling n temp ino rest ended) := by
  intro s s' hkept hl
  have hstream := hkept.stream (ne_openStream htemp)
  refine ⟨(hkept.temp temp ino htemp).mpr hl.lookup, (hkept.author ino).mpr hl.author, ?_, ?_⟩
  · rw [hkept.data ino hl.author, hstream]
    exact hl.data
  · rw [hstream]
    exact hl.ended

omit htemp

theorem owned_unwritten (h : ∀ ctx path, p.calls n ≠ .openStream ctx path) :
    Owned p n (Unwritten n) := by
  intro s s' hkept hl
  have hstream := hkept.stream h
  refine ⟨fun ino hino ↦ hl.author ino ((hkept.author ino).mp hino), ?_, ?_⟩
  · exact hstream ▸ hl.received
  · exact hstream ▸ hl.ended

theorem Filling.holding {rest : Str} {ended : Bool} (h : Filling n temp ino rest ended s) :
    Holding n temp ino s := ⟨h.lookup, h.author⟩

/-- A source: each read adds to what it has returned. -/
def Supplies (p : Pool w) (s₀ : State) (n : Nat) (source : Prog sig (Str × Option Err)) : Prop :=
  ∀ temp ino, temporary w p.calls n = some temp →
    (protocol p s₀).Triple n source (At n {} (Filling n temp ino [] false)) fun x ↦
      At n (Progress.after {} .source x) (Filling n temp ino x.1 (x.2 = some (.sentinel .eof)))

/-- The caller's source. -/
theorem supplies_source {options : WriteOptions} (hcall : p.calls n = .write ctx path options) :
    Supplies p s₀ n (perform .source) := by
  intro temp ino htemp
  refine step .source (fun x ↦ owned_filling htemp) (fun _ _ _ ↦ ⟨ctx, path, options, hcall⟩) ?_
  rintro s ⟨bytes, err⟩ s' - ⟨-, hl⟩ happly
  obtain ⟨s₁, heffect, rfl⟩ := effect happly
  cases heffect with
  | quiet hquiet => exact nomatch hquiet
  | source hended =>
      refine ⟨hl.lookup, hl.author, ?_, by simp⟩
      have hdata := hl.data
      rw [List.append_nil] at hdata
      simp [hdata]

/-- The stream of a `Copy`. -/
theorem supplies_readFile {source destination : Path}
    (hcall : p.calls n = .copy ctx source destination options) : Supplies p s₀ n (readFile n) := by
  intro temp ino htemp
  let result (r : Except Err Str) : Str × Option Err :=
    Except.casesOn r (fun err ↦ ([], some err)) fun data ↦ (data, none)
  have howned : ∀ r, Owned p n
      (Filling n temp ino (result r).1 ((result r).2 = some (.sentinel .eof))) :=
    fun _ ↦ owned_filling htemp
  refine .bind (step (.readFile n) howned ?_ ?_) fun r ↦ ?_
  · exact fun _ _ _ ↦ .inr ⟨rfl, ctx, source, destination, options, hcall⟩
  · rintro s r s' - ⟨-, hl⟩ happly
    obtain ⟨s₁, heffect, rfl⟩ := effect happly
    have hdata := hl.data
    rw [List.append_nil] at hdata
    cases heffect with
    | quiet hquiet =>
        cases r with
        | ok data => cases hquiet
        | error err =>
            have hne : err ≠ .sentinel .eof := of_decide_eq_true hquiet
            exact ⟨hl.lookup, hl.author, hl.data, by simp [result, hne, hl.ended]⟩
    | read hfile hbytes =>
        exact ⟨hl.lookup, hl.author, by simp [result, hdata], by simp [result, hl.ended]⟩
    | eof hfile hlen =>
        exact ⟨hl.lookup, hl.author, by simp [result, hdata], by simp [result]⟩
  · cases r with
    | ok data => exact .keep rfl
    | error err => exact .keep rfl

/-- `contextRead` of a source is one: an error of the context is not the end. -/
theorem Supplies.contextRead (h : Supplies p s₀ n source) (ctx : Ctx) :
    Supplies p s₀ n (contextRead ctx source) := by
  intro temp ino htemp
  have howned : Owned p n (Filling n temp ino [] false) := owned_filling htemp
  refine .bind (howned.steady (.ctxDone ctx) rfl fun _ ↦ trivial) fun done ↦ ?_
  cases done with
  | false => exact h temp ino htemp
  | true =>
      refine .bind (howned.ctxErr ctx) fun err ↦ .ret fun s _ hl ↦ ?_
      cases err with
      | none => exact hl
      | some err => cases err <;> exact hl

include htemp

/-- The write of one round of `io.Copy`. -/
theorem writeFile_triple {bytes : Str} {ended : Bool} :
    (protocol p s₀).Triple n (writeFile ino bytes) (At n q (Filling n temp ino bytes ended)) fun r ↦
      if r = none then At n q (Filling n temp ino [] ended)
      else At n (q.note true) (Holding n temp ino) := by
  unfold Local.writeFile
  split
  · rename_i hnil
    subst hnil
    exact .keep rfl
  · have howned : ∀ r : Nat × Option Err, Owned p n
        (if r = (bytes.length, none) then Filling n temp ino [] ended else Holding n temp ino) := by
      intro r
      split
      · exact owned_filling htemp
      · exact owned_holding htemp
    refine .bind (step (.writeFile ino bytes) howned ?_ ?_) ?_
    · exact fun s _ hl ↦ ⟨hl.2.author, hl.2.data ▸ List.prefix_rfl⟩
    · rintro s ⟨written, err⟩ s' - ⟨-, hl⟩ happly
      obtain ⟨s₁, heffect, rfl⟩ := effect happly
      cases heffect with
      | quiet hquiet => exact nomatch hquiet
      | write hle =>
          split
          · rename_i heq
            cases heq
            exact ⟨hl.lookup, hl.author, by simp [hl.data], hl.ended⟩
          · exact ⟨hl.lookup, hl.author⟩
    · rintro ⟨written, err⟩
      cases err with
      | some err =>
          exact .ret fun s _ hl ↦ by simpa [Progress.after, Cmd.fails, Progress.note] using hl
      | none =>
          refine .ret fun s _ hl ↦ ?_
          by_cases hlen : written = bytes.length <;>
            simp_all [Progress.after, Cmd.fails, Progress.note]

/-- What is known after the loop of `io.Copy`. -/
def Copied (n : Nat) (temp : Str) (ino : Nat) (r : Option Err) : State → Prop :=
  if r = none then At n {} (Filling n temp ino [] true)
  else At n (Progress.note {} true) (Holding n temp ino)

theorem copyNext_triple (hsource : Supplies p s₀ n source) (ctx : Ctx) :
    (protocol p s₀).Triple n (copyNext ctx ino source) (At n {} (Filling n temp ino [] false))
      (Sum.elim (fun _ ↦ At n {} (Filling n temp ino [] false)) (Copied n temp ino)) := by
  refine .bind (hsource.contextRead ctx temp ino htemp) ?_
  rintro ⟨data, readErr⟩
  refine .bind (writeFile_triple htemp) fun r ↦ ?_
  cases r with
  | some err =>
      refine .ret fun s _ hl ↦ ⟨hl.1.trans ?_, hl.2⟩
      simp [Progress.after, Progress.note]
  | none =>
      cases readErr with
      | none => exact .keep rfl
      | some err =>
          refine .ret fun s _ hl ↦ ?_
          by_cases heof : err = .sentinel .eof
          · subst heof
            exact hl
          · rw [if_neg heof]
            refine ⟨hl.1.trans ?_, hl.2.holding⟩
            simp [Progress.after, Progress.note, Cmd.fails, heof]

/-- The loop of `io.Copy`. -/
theorem copy_triple (hsource : Supplies p s₀ n source) (ctx : Ctx) :
    (protocol p s₀).Triple n (Prog.loop (fun _ ↦ copyNext ctx ino source) ())
      (At n {} (Filling n temp ino [] false)) (Copied n temp ino) := by
  refine .loop (fun _ ↦ At n {} (Filling n temp ino [] false)) (fun _ ↦ ?_) (fun r ↦ ?_)
    (fun _ ↦ copyNext_triple htemp hsource ctx) ()
  · exact ((owned_filling htemp).at _).stable
  · unfold Copied
    split
    · exact ((owned_filling htemp).at _).stable
    · exact ((owned_holding htemp).at _).stable

/-! ## Publishing it -/

/-- The error says that the destination exists. -/
def Refusal (err : Err) : Prop :=
  err.is .preconditionFailed = true ∨ err.is .alreadyExists = true

/-- The temporary file is there although it should not be any more. -/
structure Abandoned (n : Nat) (temp : Str) (ino : Nat) (err : Err) (s : State) : Prop extends
    Holding n temp ino s where
  removes : ∀ r ∈ (s.progress n).removes, r ≠ none
  why : Refusal err ∨ (s.progress n).failed = true ∨ (s.progress n).committed = true

/-- The temporary file is gone, or every attempt to remove it has failed. -/
def Cleared (p : Pool w) (n : Nat) (s : State) : Prop :=
  ∀ temp ino, temporary w p.calls n = some temp → Holding n temp ino s →
    (s.progress n).removes ≠ [] ∧ ∀ r ∈ (s.progress n).removes, r ≠ none

/-- What a `Write` has done when it returns. -/
structure Wrote (p : Pool w) (n : Nat) (r : Except Err Metadata) (s : State) : Prop where
  cleared : Cleared p n s
  ok : r.isOk = true → (s.progress n).committed = true
  error : ∀ err, r = .error err → Refusal err ∨ (s.progress n).failed = true ∨
    (s.progress n).committed = true ∨ (p.calls n).target = some .root

theorem respects_abandoned {err : Err} : Respects p n (Abandoned n temp ino err) := by
  intro s s' hkept hprogress hl
  exact ⟨owned_holding htemp s s' hkept hl.toHolding, hprogress ▸ hl.removes, hprogress ▸ hl.why⟩

omit htemp

theorem respects_wrote {r : Except Err Metadata} : Respects p n (Wrote p n r) := by
  intro s s' hkept hprogress hl
  refine ⟨fun temp ino htemp hholding ↦ ?_, hprogress ▸ hl.ok, hprogress ▸ hl.error⟩
  rw [hprogress]
  exact hl.cleared temp ino htemp ⟨(hkept.temp temp ino htemp).mp hholding.lookup,
    (hkept.author ino).mp hholding.author⟩

theorem abandoned_of_failed {err : Err} (h : At n (q.note true) (Holding n temp ino) s)
    (hremoves : q.removes = []) : Abandoned n temp ino err s := by
  refine ⟨h.2, ?_, .inr (.inl ?_)⟩
  · rw [h.1]
    simp [Progress.note, hremoves]
  · rw [h.1]
    simp [Progress.note]

theorem lookup_of_remove {s s' : State} (h : apply w n (.remove temp) none s = some s') :
    s'.tree.lookup temp = none := by
  obtain ⟨s₁, heffect, rfl⟩ := effect h
  cases heffect with
  | quiet hquiet => exact nomatch hquiet
  | remove htree => exact ((Tree.lookup_remove htree).2 temp).trans (if_pos rfl)

include htemp in
/-- The deferred function removes the temporary file, or fails to. -/
theorem abandon_triple (err : Err) :
    (protocol p s₀).Triple n (abandon ino temp err) (Abandoned n temp ino err)
      (Wrote p n) := by
  refine .bind (K := fun _ ↦ Abandoned n temp ino err) (command n (.closeFile ino)
    (fun _ _ _ ↦ trivial) (fun _ ↦ (respects_abandoned htemp).stable) ?_) fun _ ↦ ?_
  · intro s r s' _ hl happly
    have hprogress := congrFun (progress_of_step happly) n
    rw [Function.update_self] at hprogress
    refine ⟨owned_holding htemp s s' (kept_of_steady rfl happly) hl.toHolding, ?_, ?_⟩
    · rw [hprogress]
      exact hl.removes
    · rw [hprogress]
      rcases hl.why with hrefusal | hfailed | hcommitted
      · exact .inl hrefusal
      · exact .inr (.inl (by simp [Progress.after, hfailed]))
      · exact .inr (.inr hcommitted)
  · refine .bind (K := fun _ ↦ Wrote p n (.error err)) (command n (.remove temp)
      (fun s _ hl ↦ .inl ⟨htemp, ino, hl.author, hl.lookup⟩)
      (fun _ ↦ respects_wrote.stable) ?_) fun _ ↦ .keep rfl
    intro s r s' _ hl happly
    have hprogress := congrFun (progress_of_step happly) n
    rw [Function.update_self] at hprogress
    refine ⟨?_, by rintro ⟨⟩, ?_⟩
    · intro temp' ino' htemp' hholding
      cases htemp.symm.trans htemp'
      rw [hprogress]
      cases r with
      | none => exact absurd hholding.lookup (by simp [lookup_of_remove happly])
      | some failure =>
          refine ⟨by simp [Progress.after], fun r hr ↦ ?_⟩
          rcases List.mem_append.mp hr with hr | hr
          · exact hl.removes r hr
          · rw [List.mem_singleton.mp hr]
            rintro ⟨⟩
    · rintro _ ⟨⟩
      rw [hprogress]
      rcases hl.why with hrefusal | hfailed | hcommitted
      · exact .inl hrefusal
      · exact .inr (.inl (by simp [Progress.after, hfailed]))
      · exact .inr (.inr (.inl hcommitted))

/-- The temporary file has lost its temporary name. -/
def Gone (p : Pool w) (n : Nat) (s : State) : Prop :=
  ∀ temp ino, temporary w p.calls n = some temp → ¬Holding n temp ino s

theorem owned_gone : Owned p n (Gone p n) := by
  intro s s' hkept hl temp ino htemp hholding
  exact hl temp ino htemp ⟨(hkept.temp temp ino htemp).mp hholding.lookup,
    (hkept.author ino).mp hholding.author⟩

/-- A `Write` that returns before it has created anything. -/
theorem wrote_of_unwritten {err : Err} (h : At n q (Unwritten n) s)
    (herr : Refusal err ∨ q.failed = true ∨ (p.calls n).target = some .root) :
    Wrote p n (.error err) s := by
  refine ⟨fun temp ino _ hholding ↦ absurd hholding.author (h.2.author ino), nofun, ?_⟩
  rintro _ ⟨⟩
  rw [h.1]
  rcases herr with hrefusal | hfailed | hroot
  · exact .inl hrefusal
  · exact .inr (.inl hfailed)
  · exact .inr (.inr (.inr hroot))

/-- The end of a `Write` that has published its file. -/
theorem finish_triple (a : Adapter) (ctx : Ctx) (path : Path) (hcommitted : q.committed = true) :
    (protocol p s₀).Triple n
      (do
        let result ← stat a ctx path
        let _ ← perform (.closeFile ino)
        return result) (At n q (Gone p n)) (Wrote p n) := by
  refine .bind (owned_gone.stat a ctx path) fun r ↦ .of_exists fun b ↦ ?_
  refine .bind (owned_gone.steady (.closeFile ino) rfl fun _ ↦ trivial) fun _ ↦ .ret fun s _ hl ↦ ?_
  have hprogress : (s.progress n).committed = true := by
    rw [hl.1]
    exact hcommitted
  exact ⟨fun temp ino htemp hholding ↦ absurd hholding (hl.2 temp ino htemp), fun _ ↦ hprogress,
    fun _ _ ↦ .inr (.inr (.inl hprogress))⟩

def Full (n : Nat) (temp : Str) (ino : Nat) : State → Prop :=
  At n { closed := true } (Filling n temp ino [] true)

include htemp

theorem Full.ready (h : Full n temp ino s) : Ready p n s temp ino where
  temp := htemp
  lookup := h.2.lookup
  author := h.2.author
  ended := h.2.ended
  data := (List.append_nil _).symm.trans h.2.data
  committed := by rw [h.1]
  refused := by rw [h.1]
  failed := by rw [h.1]

theorem fill_triple (hsource : Supplies p s₀ n source) (ctx : Ctx) :
    (protocol p s₀).Triple n (fill ctx ino source) (At n {} (Filling n temp ino [] false)) fun r s ↦
      (r = none → Full n temp ino s) ∧ ∀ err, r = some err → Abandoned n temp ino err s := by
  have howned : Owned p n (Filling n temp ino [] true) := owned_filling htemp
  refine .check (copy_triple htemp hsource ctx)
    (fun _ ↦ .ret fun s _ hl ↦ ⟨nofun, fun _ _ ↦ abandoned_of_failed hl rfl⟩) ?_
  refine .check (howned.ctxErr ctx) (fun _ ↦ .ret fun s _ hl ↦ ⟨nofun, fun _ _ ↦ ?_⟩) ?_
  · exact abandoned_of_failed ⟨hl.1, hl.2.holding⟩ rfl
  refine .check (howned.steady (.sync ino) rfl fun _ ↦ trivial)
    (fun _ ↦ .ret fun s _ hl ↦ ⟨nofun, fun _ _ ↦ ?_⟩) ?_
  · exact abandoned_of_failed ⟨hl.1, hl.2.holding⟩ rfl
  refine .check (howned.steady (.closeFile ino) rfl fun _ ↦ trivial)
    (fun _ ↦ .ret fun s _ hl ↦ ⟨nofun, fun _ _ ↦ ?_⟩) (.ret fun s _ hl ↦ ⟨fun _ ↦ hl, nofun⟩)
  exact abandoned_of_failed (q := { closed := true }) ⟨hl.1, hl.2.holding⟩ rfl

theorem gone_of_lookup (h : s.tree.lookup temp = none) : Gone p n s := by
  intro temp' ino' htemp' hholding
  cases htemp.symm.trans htemp'
  exact nomatch h.symm.trans hholding.lookup

theorem owned_ifGone (r : Option Err) :
    Owned p n (if r = none then Gone p n else Holding n temp ino) := by
  split
  · exact owned_gone
  · exact owned_holding htemp

/-- The removal of the temporary file. -/
theorem remove_triple :
    (protocol p s₀).Triple n (perform (.remove temp)) (At n q (Holding n temp ino)) fun r ↦
      At n (q.after (.remove temp) r) (if r = none then Gone p n else Holding n temp ino) := by
  refine step (.remove temp) (owned_ifGone htemp)
    (fun s _ hl ↦ .inl ⟨htemp, ino, hl.2.author, hl.2.lookup⟩) ?_
  intro s r s' _ hl happly
  cases r with
  | none => exact gone_of_lookup htemp (lookup_of_remove happly)
  | some err => exact owned_holding htemp s s' (kept_of_quiet rfl happly) hl.2

/-- The link of a complete temporary file: it keeps its temporary name. -/
theorem link_triple (hpath : (p.calls n).target = some path)
    (hcreate : (p.calls n).overwrites = false) :
    (protocol p s₀).Triple n (perform (.link temp path.value)) (Full n temp ino) fun r ↦
      At n (Progress.after { closed := true } (.link temp path.value) r) (Holding n temp ino) := by
  refine step (.link temp path.value) (fun _ ↦ owned_holding htemp)
    (fun s _ hl ↦ ⟨hcreate, ⟨path, hpath, rfl⟩, ino, Full.ready htemp hl⟩) ?_
  intro s r s' _ hl happly
  cases r with
  | some err => exact owned_holding htemp s s' (kept_of_quiet rfl happly) hl.2.holding
  | none =>
      obtain ⟨s₁, heffect, rfl⟩ := effect happly
      cases heffect with
      | quiet hquiet => exact nomatch hquiet
      | link htree =>
          obtain ⟨-, ino', -, hnone, hlookup⟩ := Tree.lookup_link htree
          refine ⟨(hlookup temp).trans ?_, hl.2.author⟩
          rw [if_neg, hl.2.lookup]
          rintro rfl
          exact nomatch hnone.symm.trans hl.2.lookup

/-- The rename of a complete temporary file: it loses its temporary name. -/
theorem rename_triple (hpath : (p.calls n).target = some path)
    (hreplace : (p.calls n).overwrites = true) :
    (protocol p s₀).Triple n (perform (.rename temp path.value)) (Full n temp ino) fun r ↦
      At n (Progress.after { closed := true } (.rename temp path.value) r)
        (if r = none then Gone p n else Holding n temp ino) := by
  have hapart : temp ≠ path.value := by
    rintro rfl
    exact p.apart n n path (target_mem_paths hpath) htemp
  refine step (.rename temp path.value) (owned_ifGone htemp)
    (fun s _ hl ↦ ⟨hreplace, .inl ⟨⟨path, hpath, rfl⟩, ino, Full.ready htemp hl⟩⟩) ?_
  intro s r s' hs hl happly
  cases r with
  | some err => exact owned_holding htemp s s' (kept_of_quiet rfl happly) hl.2.holding
  | none =>
      obtain ⟨s₁, heffect, rfl⟩ := effect happly
      refine gone_of_lookup htemp ?_
      cases heffect with
      | quiet hquiet => exact nomatch hquiet
      | rename htree =>
          obtain ⟨-, ino', htemp', -, hlookup⟩ := Tree.lookup_rename htree
          obtain rfl := Node.file.inj (Option.some.inj (htemp'.symm.trans hl.2.lookup))
          rcases hlookup with ⟨hsame, -⟩ | hlookup
          · -- the file has no other name, so the destination is not a name of it
            have halone := hs.alone ino' n path.value hl.2.author
              (Full.ready htemp hl).committed hsame
            exact absurd (Option.some.inj (htemp.symm.trans halone)) hapart
          · refine (hlookup temp).trans ?_
            rw [if_neg hapart, if_pos rfl]

/-- Publishing the temporary file. -/
theorem publish_triple (hpath : (p.calls n).target = some path) :
    (protocol p s₀).Triple n (publish temp path !(p.calls n).overwrites) (Full n temp ino) fun r s ↦
      (r = none → ∃ q, q.committed = true ∧ At n q (Gone p n) s) ∧
        ∀ err, r = some err → Abandoned n temp ino err s := by
  unfold publish
  cases hoverwrites : (p.calls n).overwrites with
  | false =>
      refine .bind (link_triple htemp hpath hoverwrites) fun r ↦ ?_
      cases r with
      | some err =>
          refine .ret fun s _ hl ↦ ⟨by rintro ⟨⟩, ?_⟩
          rintro _ ⟨⟩
          refine ⟨hl.2, ?_, ?_⟩
          · rw [hl.1]
            cases hexist : err.is .exist <;> simp [Progress.after, hexist]
          · rw [hl.1]
            cases hexist : err.is .exist with
            | false => exact .inr (.inl (by simp [Progress.after, hexist]))
            | true => exact .inl (.inl rfl)
      | none =>
          refine .bind (remove_triple htemp) fun r ↦ ?_
          cases r with
          | some err =>
              refine .ret fun s _ hl ↦ ⟨by rintro ⟨⟩, fun _ _ ↦ ⟨hl.2, ?_, .inr (.inr ?_)⟩⟩
              · rw [hl.1]
                simp [Progress.after]
              · rw [hl.1]
                rfl
          | none => exact .ret fun s _ hl ↦ ⟨fun _ ↦ ⟨_, rfl, hl⟩, by rintro _ ⟨⟩⟩
  | true =>
      refine .bind (rename_triple htemp hpath hoverwrites) fun r ↦ ?_
      cases r with
      | some err =>
          refine .ret fun s _ hl ↦ ⟨by rintro ⟨⟩, fun _ _ ↦ ⟨hl.2, ?_, .inr (.inl ?_)⟩⟩
          · rw [hl.1]
            simp [Progress.after]
          · rw [hl.1]
            rfl
      | none => exact .ret fun s _ hl ↦ ⟨fun _ ↦ ⟨_, rfl, hl⟩, by rintro _ ⟨⟩⟩

theorem create_triple :
    (protocol p s₀).Triple n (perform (.create temp)) (At n q (Unwritten n)) fun r ↦
      At n (q.after (.create temp) r) fun s ↦
        (∀ ino, r = .ok ino → Filling n temp ino [] false s) ∧
          ∀ err, r = .error err → Unwritten n s := by
  refine step (.create temp) (fun r s s' hkept hl ↦ ?_) (fun s _ hl ↦ ⟨htemp, hl.2.author⟩) ?_
  · exact ⟨fun ino hr ↦ owned_filling htemp s s' hkept (hl.1 ino hr),
      fun err hr ↦ owned_unwritten (ne_openStream htemp) s s' hkept (hl.2 err hr)⟩
  · intro s r s' _ hl happly
    cases r with
    | error err =>
        exact ⟨nofun, fun _ _ ↦ owned_unwritten (ne_openStream htemp) s s'
          (kept_of_quiet rfl happly) hl.2⟩
    | ok ino =>
        obtain ⟨s₁, heffect, rfl⟩ := effect happly
        cases heffect with
        | quiet hquiet => exact nomatch hquiet
        | create htree =>
            refine ⟨?_, nofun⟩
            rintro _ ⟨⟩
            refine ⟨?_, by simp, by simp [hl.2.received], hl.2.ended⟩
            exact ((Tree.lookup_create htree).2.2 temp).trans (if_pos rfl)

theorem writeTemporary_triple (hsource : Supplies p s₀ n source)
    (hpath : (p.calls n).target = some path) (a : Adapter) (ctx : Ctx) :
    (protocol p s₀).Triple n (writeTemporary a ctx path temp source !(p.calls n).overwrites)
      (At n {} (Unwritten n)) (Wrote p n) := by
  refine .bind (create_triple htemp) fun r ↦ ?_
  cases r with
  | error err => exact .ret fun s _ hl ↦ wrote_of_unwritten ⟨hl.1, hl.2.2 err rfl⟩ (.inr (.inl rfl))
  | ok ino =>
      have habandon : ∀ err, (protocol p s₀).Triple n (abandon ino temp err)
          (Abandoned n temp ino err) (Wrote p n) := fun err ↦ abandon_triple htemp err
      refine .check ((fill_triple htemp hsource ctx).pre fun s _ hl ↦ ⟨hl.1, hl.2.1 ino rfl⟩)
        (fun err ↦ (habandon err).pre fun s _ hl ↦ hl.2 err rfl) ?_
      refine .check ((publish_triple htemp hpath).pre fun s _ hl ↦ hl.1 rfl)
        (fun err ↦ (habandon err).pre fun s _ hl ↦ hl.2 err rfl) ?_
      exact Protocol.Triple.pre (.of_exists fun q ↦ .of_fact fun hcommitted ↦
        finish_triple a ctx path hcommitted) fun s _ hl ↦ hl.1 rfl

theorem random_triple :
    (protocol p s₀).Triple n (perform .random) (At n q (Unwritten n)) fun r s ↦
      (∀ bytes, r = .ok bytes → bytes = w.random n) ∧ At n (q.after .random r) (Unwritten n) s := by
  have hK : ∀ r : Except Err Str,
      Owned p n fun s ↦ (∀ bytes, r = .ok bytes → bytes = w.random n) ∧ Unwritten n s :=
    fun r s s' hkept hl ↦ ⟨hl.1, owned_unwritten (ne_openStream htemp) s s' hkept hl.2⟩
  refine (step .random hK (fun _ _ _ ↦ trivial) ?_).conseq (fun _ _ hl ↦ hl)
    fun r s _ hq ↦ ⟨hq.2.1, hq.1, hq.2.2⟩
  intro s r s' _ hl happly
  refine ⟨?_, owned_unwritten (ne_openStream htemp) s s' (kept_of_steady rfl happly) hl.2⟩
  rintro bytes rfl
  obtain ⟨s₁, hact, -⟩ := Option.map_eq_some_iff.mp happly
  exact (Option.ite_none_right_eq_some.mp hact).1

omit htemp

theorem writeFrom_triple (hsource : Supplies p s₀ n source) (hpath : (p.calls n).target = some path)
    (a : Adapter) (ctx : Ctx) :
    (protocol p s₀).Triple n (writeFrom a ctx path source !(p.calls n).overwrites)
      (At n {} (Unwritten n)) (Wrote p n) := by
  have htemp : temporary w p.calls n =
      some (temporaryName (PathName.dir path.value) (w.random n)) := by
    rw [temporary, hpath]
    rfl
  have howned := owned_unwritten (ne_openStream htemp)
  unfold writeFrom
  split
  · rename_i hroot
    refine .ret fun s _ hl ↦ wrote_of_unwritten hl (.inr (.inr ?_))
    rw [hpath, Path.isRoot_iff.mp hroot]
  · have hfailed : ∀ err s, At n (Progress.note {} true) (Unwritten n) s →
        Wrote p n (.error err) s := fun err s hl ↦ wrote_of_unwritten hl (.inr (.inl rfl))
    refine .check (howned.ctxErr ctx) (fun _ ↦ .ret fun s _ ↦ hfailed _ s) ?_
    refine .check (howned.checkSymlinks a path false) (fun _ ↦ .ret fun s _ ↦ hfailed _ s) ?_
    refine .check (K := Absent n {} (Unwritten n) (preconditionFailed path)) ?_
      (fun err ↦ .ret fun s _ hl ↦ ?_) ?_
    · split
      · exact howned.requireAbsent path _
      · exact .keep rfl
    · rcases hl with ⟨rfl, hl⟩ | hl
      · exact wrote_of_unwritten hl (.inl (.inl rfl))
      · exact hfailed err s hl
    refine .check (howned.mkdirParents (target_mem_paths hpath))
      (fun _ ↦ .ret fun s _ ↦ hfailed _ s) ?_
    refine .bind (random_triple htemp) fun r ↦ .of_fact fun hrandom ↦ ?_
    cases r with
    | error err => exact .ret fun s _ ↦ hfailed _ s
    | ok bytes =>
        obtain rfl := hrandom bytes rfl
        exact writeTemporary_triple htemp hsource hpath a ctx

end Write

/-! ## The calls -/

/-- Before a call has done anything. -/
structure Unused (n : Nat) (s : State) : Prop extends Unwritten n s where
  opened : (s.streams n).opened = false

theorem owned_unused (h : ∀ ctx path, p.calls n ≠ .openStream ctx path) :
    Owned p n (Unused n) := by
  intro s s' hkept hl
  exact ⟨owned_unwritten h s s' hkept hl.toUnwritten, hkept.opened.trans hl.opened⟩

theorem write_triple {options : WriteOptions} (hcall : p.calls n = .write ctx path options)
    (a : Adapter) :
    (protocol p s₀).Triple n (write a ctx path options) (At n {} (Unused n)) (Wrote p n) := by
  have htarget : (p.calls n).target = some path := by
    rw [hcall]
    rfl
  have hmode : options.ifNoneMatch = !(p.calls n).overwrites := by
    rw [hcall]
    exact (Bool.not_not _).symm
  unfold Local.write
  rw [hmode]
  exact (writeFrom_triple (supplies_source hcall) htarget a ctx).pre
    fun s _ hl ↦ ⟨hl.1, hl.2.toUnwritten⟩

/-- The result of a `Copy`, as that of the `Write` it ends with. -/
def copyResult : Option Err → Except Err Metadata
  | none => .ok {}
  | some err => .error err

theorem closeStream_triple (k : StreamId) (result : Except Err Metadata) :
    (protocol p s₀).Triple n (perform (.closeStream k)) (Wrote p n result)
      fun _ ↦ Wrote p n result := by
  refine command n (.closeStream k) (fun _ _ _ ↦ trivial) (fun _ ↦ respects_wrote.stable) ?_
  intro s r s' _ hl happly
  refine respects_wrote s s' (kept_of_steady rfl happly) ?_ hl
  rw [progress_of_step happly, Function.update_self]
  exact (s.progress n).note_false

theorem copy_call_triple {source destination : Path}
    (hcall : p.calls n = .copy ctx source destination options) (a : Adapter) :
    (protocol p s₀).Triple n (copy a n ctx source destination options) (At n {} (Unused n))
      fun r ↦ Wrote p n (copyResult r) := by
  have htarget : (p.calls n).target = some destination := by
    rw [hcall]
    rfl
  have hmode : (!options.overwrite) = !(p.calls n).overwrites := by
    rw [hcall]
    rfl
  have hsource : source ∈ (p.calls n).paths := by
    rw [hcall]
    exact List.mem_cons_self
  have hopen : ∀ ctx path, p.calls n ≠ .openStream ctx path := by
    rw [hcall]
    exact nofun
  have hwrite : ∀ ctx path options, p.calls n ≠ .write ctx path options := by
    rw [hcall]
    exact nofun
  have howned := owned_unused hopen
  unfold Local.copy
  refine .check (K := Absent n {} (Unused n) (.wrap "%w: %s" [destination.value]
    (.sentinel .alreadyExists))) ?_ (fun err ↦ .ret fun s _ hl ↦ ?_) ?_
  · split
    · exact .keep rfl
    · exact howned.requireAbsent destination _
  · rcases hl with ⟨rfl, hl⟩ | hl
    · exact wrote_of_unwritten ⟨hl.1, hl.2.toUnwritten⟩ (.inl (.inr rfl))
    · exact wrote_of_unwritten ⟨hl.1, hl.2.toUnwritten⟩ (.inr (.inl rfl))
  refine .check (howned.openStream (owned_unwritten hopen) a ctx hsource hwrite
    (fun s hl ↦ hl.opened) fun s s' hl hauthor hreceived hended ↦
      ⟨fun ino ↦ hauthor ▸ hl.author ino, hreceived, hended⟩)
    (fun _ ↦ .ret fun s _ hl ↦ wrote_of_unwritten ⟨hl.1, hl.2.toUnwritten⟩ (.inr (.inl rfl))) ?_
  rw [hmode]
  refine .bind (writeFrom_triple ((supplies_readFile hcall).contextRead ctx) htarget a ctx)
    fun result ↦ .bind (closeStream_triple n result) fun _ ↦ ?_
  cases result with
  | error err => exact .keep rfl
  | ok metadata => exact .ret fun _ _ hl ↦ ⟨hl.cleared, fun _ ↦ hl.ok rfl, nofun⟩

theorem owned_true : Owned p n fun _ ↦ True := fun _ _ _ _ ↦ trivial

/-- A `Move` has moved the file exactly if it returns nil. -/
def Moved (n : Nat) (r : Option Err) (s : State) : Prop :=
  (s.progress n).committed = true ↔ r = none

theorem moved_of_some {err : Err} (hq : q.committed = false) (h : At n q (fun _ ↦ True) s) :
    Moved n (some err) s := by
  refine iff_of_false ?_ nofun
  rw [h.1, hq]
  exact Bool.false_ne_true

theorem move_triple {source destination : Path}
    (hcall : p.calls n = .move ctx source destination options) (a : Adapter) :
    (protocol p s₀).Triple n (move a ctx source destination options) (At n {} fun _ ↦ True)
      (Moved n) := by
  have hdestination : destination ∈ (p.calls n).paths := by
    rw [hcall]
    exact List.mem_cons_of_mem _ List.mem_cons_self
  have hmoves : ∀ s, At n {} (fun _ ↦ True) s → Moves p n s source.value destination.value := by
    intro s hl
    refine ⟨?_, ctx, source, destination, options, hcall, rfl, rfl⟩
    rw [hl.1]
  have hfailed : ∀ err s, Inv p s₀ s → At n (Progress.note {} true) (fun _ ↦ True) s →
      Moved n (some err) s := fun _ _ _ hl ↦ moved_of_some rfl hl
  refine .check (owned_true.ctxErr ctx) (fun _ ↦ .ret (hfailed _)) ?_
  refine .check (owned_true.checkSymlinks a source true) (fun _ ↦ .ret (hfailed _)) ?_
  refine .check (owned_true.checkSymlinks a destination false) (fun _ ↦ .ret (hfailed _)) ?_
  refine .check (K := Absent n {} (fun _ ↦ True) (moveConflict destination (.sentinel .exist))) ?_
    (fun err ↦ .ret fun s hs hl ↦ ?_) ?_
  · split
    · exact .keep rfl
    · exact owned_true.requireAbsent destination _
  · rcases hl with ⟨-, hl⟩ | hl
    · exact moved_of_some rfl hl
    · exact hfailed err s hs hl
  refine .check (owned_true.mkdirParents hdestination) (fun _ ↦ .ret (hfailed _)) ?_
  dsimp only
  split
  · rename_i hoverwrite
    refine .check (step (.rename source.value destination.value) (fun _ ↦ owned_true)
      (fun s _ hl ↦ ⟨?_, .inr (hmoves s hl)⟩) fun _ _ _ _ _ _ ↦ trivial)
      (fun _ ↦ .ret fun s _ hl ↦ moved_of_some rfl hl)
      (.ret fun s _ hl ↦ iff_of_true (hl.1 ▸ rfl) rfl)
    rw [hcall]
    exact hoverwrite
  · rename_i hoverwrite
    refine .check (step (.renameNoReplace source.value destination.value) (fun _ ↦ owned_true)
      (fun s _ hl ↦ ⟨?_, hmoves s hl⟩) fun _ _ _ _ _ _ ↦ trivial)
      (fun _ ↦ .ret fun s _ hl ↦ moved_of_some rfl hl)
      (.ret fun s _ hl ↦ iff_of_true (hl.1 ▸ rfl) rfl)
    rw [hcall]
    exact Bool.not_eq_true _ ▸ hoverwrite

theorem delete_triple (hcall : p.calls n = .delete ctx path) (a : Adapter) :
    (protocol p s₀).Triple n (delete a ctx path) (At n {} fun _ ↦ True) fun _ _ ↦ True := by
  refine .check (owned_true.ctxErr ctx) (fun _ ↦ .ret fun _ _ _ ↦ trivial) ?_
  refine .check (owned_true.checkSymlinks a path true) (fun _ ↦ .ret fun _ _ _ ↦ trivial) ?_
  exact .check (step (.remove path.value) (fun _ ↦ owned_true)
    (fun _ _ _ ↦ .inr ⟨ctx, path, hcall, rfl⟩) fun _ _ _ _ _ _ ↦ trivial)
    (fun _ ↦ .ret fun _ _ _ ↦ trivial) (.ret fun _ _ _ ↦ trivial)

theorem openStream_triple (hcall : p.calls n = .openStream ctx path) (a : Adapter) :
    (protocol p s₀).Triple n (openStream a ctx path)
      (At n {} fun s ↦ (s.streams n).opened = false) fun _ _ ↦ True := by
  have howned : Owned p n fun s ↦ (s.streams n).opened = false :=
    fun s s' hkept hl ↦ hkept.opened.trans hl
  have hpath : path ∈ (p.calls n).paths := by
    rw [hcall]
    exact List.mem_cons_self
  refine (howned.openStream owned_true a ctx hpath ?_ (fun _ hl ↦ hl)
    fun _ _ _ _ _ _ ↦ trivial).conseq (fun _ _ hl ↦ hl) fun _ _ _ _ ↦ trivial
  rw [hcall]
  exact nofun

/-- A read that returns `io.EOF` has reached the end. -/
theorem read_triple {k : StreamId} (hcall : p.calls n = .read k) :
    (protocol p s₀).Triple n (read k) (At n {} fun _ ↦ True) fun x s ↦
      x.2 = some (.sentinel .eof) → (s.streams k).ended = true := by
  refine .bind (owned_true.steady (.useStream k) rfl fun _ ↦ trivial) fun ctx ↦ ?_
  refine .bind (owned_true.steady (.ctxDone ctx) rfl fun _ ↦ trivial) fun done ↦ ?_
  cases done with
  | true =>
      refine .bind (owned_true.ctxErr ctx) fun r ↦ .ret fun s _ _ heof ↦ ?_
      obtain ⟨err, -, heq⟩ := Option.map_eq_some_iff.mp heof
      cases err <;> cases heq
  | false =>
      refine .bind (K := fun r s ↦ r = .error (.sentinel .eof) → (s.streams k).ended = true)
        (command n (.readFile k) (fun _ _ _ ↦ .inl hcall) ?_ ?_) fun r ↦ ?_
      · intro r m _ c r' s s' hs _ hguar hl heof
        exact ((later_of_step hs hguar.1 hguar.2).ended k (hl heof)).1
      · rintro s _ s' - - happly rfl
        obtain ⟨s₁, heffect, rfl⟩ := effect happly
        cases heffect with
        | quiet hquiet => exact absurd hquiet (by simp [Cmd.quiet])
        | eof => simp
      · cases r with
        | ok data => exact .ret fun _ _ _ ↦ by rintro ⟨⟩
        | error err => exact .ret fun s _ hl heof ↦ hl (congrArg _ (Option.some.inj heof))

def Returned (p : Pool w) (n : Nat) (outcome : Outcome) (s : State) : Prop :=
  match p.calls n with
  | .write _ _ _ => ∃ r, outcome = .metadata r ∧ Wrote p n r s
  | .copy _ _ _ _ => ∃ r, outcome = .err r ∧ Wrote p n (copyResult r) s
  | .move _ _ _ _ => ∃ r, outcome = .err r ∧ Moved n r s
  | .read k => ∃ data err, outcome = .read data err ∧
      (err = some (.sentinel .eof) → (s.streams k).ended = true)
  | _ => True

/-- Every call keeps to the protocol. -/
theorem verified (a : Adapter) (ctx : Ctx → Option CtxErr) (tree : Tree) (data : Nat → Str) :
    Verified (protocol p { ctx, tree, data }) (Returned p)
      (start a p.calls { ctx, tree, data }) := by
  refine ⟨inv_initial ctx tree data, fun n ↦ ?_⟩
  have htrue : At n {} (fun _ ↦ True) { ctx, tree, data } := ⟨rfl, trivial⟩
  have hunused : At n {} (Unused n) { ctx, tree, data } := ⟨rfl, ⟨nofun, rfl, rfl⟩, rfl⟩
  have howned := (owned_true (p := p) (n := n)).at {}
  dsimp only [start]
  unfold Returned
  cases hcall : p.calls n with
  | write ctx path options =>
      refine ⟨_, (Owned.at (owned_unused ?_) _).stable, hunused,
        .bind (write_triple hcall a) fun r ↦
        .ret fun s _ hl ↦ ⟨r, rfl, hl⟩⟩
      rw [hcall]
      exact nofun
  | copy ctx source destination options =>
      refine ⟨_, (Owned.at (owned_unused ?_) _).stable, hunused, .bind (copy_call_triple hcall a)
        fun r ↦ .ret fun s _ hl ↦ ⟨r, rfl, hl⟩⟩
      rw [hcall]
      exact nofun
  | move ctx source destination options =>
      exact ⟨_, howned.stable, htrue, .bind (move_triple hcall a)
        fun r ↦ .ret fun s _ hl ↦ ⟨r, rfl, hl⟩⟩
  | delete ctx path =>
      exact ⟨_, howned.stable, htrue, .bind (delete_triple hcall a) fun r ↦ .keep rfl⟩
  | openStream ctx path =>
      exact ⟨_, (Owned.at (fun s s' hkept hl ↦ hkept.opened.trans hl) _).stable, ⟨rfl, rfl⟩,
        .bind (openStream_triple hcall a) fun r ↦ .keep rfl⟩
  | read k =>
      exact ⟨_, howned.stable, htrue, .bind (read_triple hcall)
        fun r ↦ .ret fun s _ hl ↦ ⟨r.1, r.2, rfl, hl⟩⟩
  | stat ctx path =>
      exact ⟨_, howned.stable, htrue, .bind (owned_true.stat a ctx path)
        fun r ↦ .ret fun s _ hl ↦ trivial⟩
  | cancel ctx err =>
      exact ⟨_, howned.stable, htrue, .bind (owned_true.steady (.cancel ctx err) rfl
        fun _ ↦ trivial) fun r ↦ .ret fun s _ hl ↦ trivial⟩

def Outcome.error : Outcome → Option Err
  | .err e | .read _ e => e
  | .metadata (.error e) => some e
  | .metadata (.ok _) => none

/-- A `Write` or a `Copy` that has returned. -/
theorem wrote_of_returned (hpath : (p.calls n).target = some path) {outcome : Outcome}
    (h : Returned p n outcome s) :
    ∃ r, Wrote p n r s ∧ (outcome.error = none → r.isOk = true) ∧
      ∀ err, outcome.error = some err → r = .error err := by
  unfold Returned at h
  cases hcall : p.calls n with
  | write ctx path options =>
      rw [hcall] at h
      obtain ⟨r, rfl, hwrote⟩ := h
      refine ⟨r, hwrote, ?_⟩
      cases r with
      | error err => exact ⟨nofun, fun err heq ↦ congrArg _ (Option.some.inj heq)⟩
      | ok metadata => exact ⟨fun _ ↦ rfl, nofun⟩
  | copy ctx source destination options =>
      rw [hcall] at h
      obtain ⟨r, rfl, hwrote⟩ := h
      refine ⟨copyResult r, hwrote, ?_⟩
      cases r with
      | some err => exact ⟨nofun, fun err heq ↦ congrArg _ (Option.some.inj heq)⟩
      | none => exact ⟨fun _ ↦ rfl, nofun⟩
  | _ =>
      rw [hcall] at hpath
      exact nomatch hpath

end GoFilesystem.Local
