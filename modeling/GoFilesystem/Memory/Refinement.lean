import GoFilesystem.Memory.Effects

/-!
# The in-memory adapter is a partial map

What the adapter is for: a partial map from paths to objects.  `Op.Effect` says
what each operation does to such a map when it succeeds, in terms of the objects
at the paths it names.  The objects map of a reachable state has only strings of
paths as keys, so it stands for exactly one partial map; every operation that
succeeds has its effect, and one that returns an error leaves the map alone.
-/

namespace GoFilesystem

open Go

abbrev PartialMap := Path → Option Memory.Object

/-- What an operation that succeeds at a time does to a partial map.  Closing a
writer publishes what an earlier operation named, and is not specified here. -/
def Op.Effect (now : Time) (m m' : PartialMap) : Op → Prop
  | .write path source options => path ≠ .root ∧ source.Complete ∧
      (options.ifNoneMatch = true → m path = none) ∧
      ∃ normalized, Memory.normalizeVisibility options.visibility = .ok normalized ∧
        m' = Function.update m path (some {
          content := source.content
          metadata := options.metadata
          contentType := options.contentType
          visibility := normalized
          modified := now })
  | .delete path => (m path).isSome = true ∧ m' = Function.update m path none
  | .copy source destination options => ∃ stored, m source = some stored ∧
      (options.overwrite = true ∨ m destination = none) ∧
        m' = Function.update m destination (some { stored with modified := now })
  | .move source destination options => ∃ stored, m source = some stored ∧
      (options.overwrite = true ∨ m destination = none) ∧
      ((source = destination ∧ m' = m) ∨ source ≠ destination ∧
        m' = Function.update (Function.update m destination (some { stored with modified := now }))
          source none)
  | .setMetadata path metadata => ∃ stored, m path = some stored ∧
      m' = Function.update m path (some { stored with metadata, modified := now })
  | .setVisibility path requested => ∃ stored normalized, m path = some stored ∧
      Memory.normalizeVisibility requested = .ok normalized ∧
        m' = Function.update m path (some { stored with visibility := normalized, modified := now })
  | .openPath _ | .openRange _ _ | .stat _ | .list _ _ | .checksum _ _ | .visibility _
  | .openWriter _ _ | .temporaryURL _ _ _ | .closeWriter _ _ => m' = m

end GoFilesystem

namespace GoFilesystem.Memory

open Go Method

def partialMap (objects : Objects) : PartialMap := fun path ↦ objects.lookup path.value

def PathKeys (objects : Objects) : Prop :=
  ∀ name stored, objects.lookup name = some stored → ∃ path : Path, path.value = name

theorem partialMap_insert (objects : Objects) (path : Path) (stored : Object) :
    partialMap (objects.insert path.value stored) =
      Function.update (partialMap objects) path (some stored) := by
  funext other
  by_cases heq : other = path
  · subst heq
    rw [Function.update_self]
    exact Finmap.lookup_insert objects
  · rw [Function.update_of_ne heq]
    exact Finmap.lookup_insert_of_ne _ fun hvalue ↦ heq (Path.ext hvalue)

theorem partialMap_erase (objects : Objects) (path : Path) :
    partialMap (objects.erase path.value) = Function.update (partialMap objects) path none := by
  funext other
  by_cases heq : other = path
  · subst heq
    rw [Function.update_self]
    exact Finmap.lookup_erase _ _
  · rw [Function.update_of_ne heq]
    exact Finmap.lookup_erase_ne fun hvalue ↦ heq (Path.ext hvalue)

/-! ## Reachable states -/

variable {objects : Objects}

theorem PathKeys.insert (h : PathKeys objects) (path : Path) (stored : Object) :
    PathKeys (objects.insert path.value stored) := by
  intro name stored' hl
  by_cases heq : name = path.value
  · exact ⟨path, heq.symm⟩
  · rw [Finmap.lookup_insert_of_ne _ heq] at hl
    exact h name stored' hl

theorem PathKeys.erase (h : PathKeys objects) (name : Str) : PathKeys (objects.erase name) := by
  intro name' stored' hl
  by_cases heq : name' = name
  · rw [heq, Finmap.lookup_erase] at hl
    contradiction
  · rw [Finmap.lookup_erase_ne heq] at hl
    exact h name' stored' hl

/-- The discipline of keeping the keys strings of paths; a listing may panic. -/
def pathKeys : Call.Discipline Objects where
  pre := PathKeys
  step _ _ := True
  mayPanic := True
  refl _ := trivial
  trans _ _ := trivial

theorem pathKeys_admits : Admits pathKeys {} where
  write stored h _ _ := ⟨PathKeys.insert h _ stored, trivial⟩
  remove h _ := ⟨PathKeys.erase h _, trivial⟩
  create stored h _ := ⟨PathKeys.insert h _ stored, trivial⟩
  modify stored h _ _ := ⟨PathKeys.insert h _ stored, trivial⟩
  list := .inl trivial

theorem allowed_everywhere (op : Op) : op.Allowed {} := by
  cases op <;> simp [Op.Allowed]

theorem perform_pathKeys {hashes : Hashes} {op : Op} {env : Env} {client next : Client Objects}
    {result : Result} {events : List Event} (hkeys : PathKeys client.store)
    (hw : WritersObey pathKeys client.writers)
    (h : Client.perform (backend hashes) op env client = some (result, events, next)) :
    PathKeys next.store ∧ WritersObey pathKeys next.writers := by
  have hout := call_obeys (backend_obeys pathKeys_admits hashes) hw (allowed_everywhere op) env
    { store := client.store } hkeys
  obtain ⟨⟨r, frame⟩, hcall, heq⟩ := Option.map_eq_some_iff.mp h
  rw [hcall] at hout
  obtain ⟨-, heq⟩ := Prod.mk.inj heq
  obtain ⟨-, rfl⟩ := Prod.mk.inj heq
  exact ⟨hout.1.1, hout.2⟩

theorem run_pathKeys {hashes : Hashes} {steps : List (Op × Env)} {client client' : Client Objects}
    (h : Client.run (backend hashes) steps client = some client') (hkeys : PathKeys client.store)
    (hw : WritersObey pathKeys client.writers) :
    PathKeys client'.store ∧ WritersObey pathKeys client'.writers := by
  induction steps generalizing client with
  | nil =>
      cases h
      exact ⟨hkeys, hw⟩
  | cons step steps ih =>
      obtain ⟨op, env⟩ := step
      obtain ⟨⟨result, events, next⟩, hperform, hrest⟩ := Option.bind_eq_some_iff.mp h
      obtain ⟨hkeys', hw'⟩ := perform_pathKeys hkeys hw hperform
      exact ih hrest hkeys' hw'

theorem pathKeys_new : PathKeys new := by
  intro name stored h
  rw [new, Finmap.lookup_empty] at h
  contradiction

/-! ## What each operation does -/

section Methods

variable {α : Type} {env : Env} {frame : Frame Objects}

theorem ensures_store_eq {x : Method Objects α} {V : α → Prop}
    (h : Obeys (.outside stored ∅) x V) :
    Call.Ensures x env frame fun _ frame' ↦ frame'.store = frame.store :=
  Call.Ensures.mono (Call.Obeys.ensures h trivial) fun _ _ hout ↦
    Finmap.ext_lookup fun name ↦ hout.1.2 name (Set.notMem_empty name)

/-- `io.Copy` leaves the state alone, and returns without an error only if it
has copied the whole source. -/
theorem copyReads_spec (source : Source) (chunks : List Str) (content : Str)
    (frame : Frame Objects) :
    Call.Ensures (copyReads source chunks content) env frame fun result frame' ↦
      frame'.store = frame.store ∧ ∀ copied, result = .ok copied →
        source.Complete ∧ copied = content ++ (chunks.flatten ++ source.last) := by
  induction chunks generalizing content frame with
  | nil =>
      refine .bind_of_eq (ctxErr_apply env frame) ?_
      cases env.ctx frame.polls with
      | some err => exact .pure ⟨rfl, nofun⟩
      | none =>
          refine .pure ⟨rfl, fun copied hcopied ↦ ?_⟩
          split at hcopied
          · rename_i hcomplete
            exact ⟨hcomplete, (Except.ok.inj hcopied).symm⟩
          · contradiction
  | cons chunk chunks ih =>
      refine .bind_of_eq (ctxErr_apply env frame) ?_
      cases env.ctx frame.polls with
      | some err => exact .pure ⟨rfl, nofun⟩
      | none => simpa using ih (content ++ chunk) { frame with polls := frame.polls + 1 }

theorem copySource_spec (source : Source) (frame : Frame Objects) :
    Call.Ensures (copySource source) env frame fun result frame' ↦
      frame'.store = frame.store ∧ ∀ copied, result = .ok copied →
        source.Complete ∧ copied = source.content :=
  copyReads_spec source source.reads [] frame

theorem publish_spec (path : Path) (ifNoneMatch : Bool) (stored : Object) (objects : Objects) :
    (∃ err, publish path ifNoneMatch stored objects = (some err, objects)) ∨
      (ifNoneMatch = true → partialMap objects path = none) ∧
        publish path ifNoneMatch stored objects = (none, objects.insert path.value stored) := by
  unfold publish
  split
  · exact .inl ⟨_, rfl⟩
  · rename_i hmatch
    refine .inr ⟨fun hifNoneMatch ↦ ?_, rfl⟩
    rw [hifNoneMatch, Bool.true_and, Bool.not_eq_true, Option.isSome_eq_false_iff] at hmatch
    exact Option.isNone_iff_eq_none.mp hmatch

/-- `Write` stores the whole source or changes nothing. -/
theorem write_spec (path : Path) (source : Source) (options : WriteOptions) :
    Call.Ensures (write path source options) env frame fun r frame' ↦
      (r.2 ≠ none → frame'.store = frame.store) ∧ (r.2 = none →
        (Op.write path source options).Effect env.now (partialMap frame.store)
          (partialMap frame'.store)) := by
  unfold write
  split
  · exact .pure ⟨fun _ ↦ rfl, nofun⟩
  · rename_i hroot
    rw [Path.isRoot_iff] at hroot
    cases hvisibility : normalizeVisibility options.visibility with
    | error err => exact .pure ⟨fun _ ↦ rfl, nofun⟩
    | ok visibility =>
        refine (copySource_spec source frame).bind fun result frame₁ hcopy ↦ ?_
        obtain ⟨hstore, hcopied⟩ := hcopy
        cases result with
        | error err => exact .pure ⟨fun _ ↦ hstore, nofun⟩
        | ok content =>
            obtain ⟨hcomplete, rfl⟩ := hcopied content rfl
            refine .bind_of_eq (ctxErr_apply env frame₁) ?_
            cases env.ctx frame₁.polls with
            | some err => exact .pure ⟨fun _ ↦ hstore, nofun⟩
            | none =>
                refine .bind_of_eq (clock_apply env _) (.bind_of_eq (modify_apply _ env _) ?_)
                dsimp only
                rw [hstore]
                rcases publish_spec path options.ifNoneMatch
                  (newObject options visibility source.content env.now) frame.store with
                  ⟨err, hpublish⟩ | ⟨hmatch, hpublish⟩
                · rw [hpublish]
                  exact .pure ⟨fun _ ↦ rfl, nofun⟩
                · rw [hpublish]
                  refine .pure ⟨fun herr ↦ absurd rfl herr, fun _ ↦ ?_⟩
                  exact ⟨hroot, hcomplete, hmatch, visibility, hvisibility,
                    partialMap_insert _ _ _⟩

/-- What a body that runs under the write lock does: `Q` if it returns nil,
and nothing otherwise. -/
theorem locked_spec {body : Time → Objects → Option Err × Objects}
    {Q : PartialMap → PartialMap → Prop}
    (hbody : ((body env.now frame.store).1 ≠ none → (body env.now frame.store).2 = frame.store) ∧
      ((body env.now frame.store).1 = none →
        Q (partialMap frame.store) (partialMap (body env.now frame.store).2))) :
    Call.Ensures (locked body) env frame fun err frame' ↦
      (err ≠ none → frame'.store = frame.store) ∧
        (err = none → Q (partialMap frame.store) (partialMap frame'.store)) := by
  intro err frame' heq
  rw [locked_apply] at heq
  cases hctx : env.ctx frame.polls with
  | some e =>
      rw [hctx] at heq
      cases heq
      exact ⟨fun _ ↦ rfl, nofun⟩
  | none =>
      rw [hctx] at heq
      cases heq
      exact hbody

theorem delete_spec (path : Path) :
    Call.Ensures (delete path) env frame fun err frame' ↦
      (err ≠ none → frame'.store = frame.store) ∧ (err = none →
        (Op.delete path).Effect env.now (partialMap frame.store) (partialMap frame'.store)) := by
  refine locked_spec (Q := (Op.delete path).Effect env.now) ?_
  unfold deleteLocked
  split
  · exact ⟨fun _ ↦ rfl, nofun⟩
  · rename_i hl
    refine ⟨fun herr ↦ absurd rfl herr, fun _ ↦ ⟨?_, partialMap_erase _ _⟩⟩
    exact Option.isSome_iff_exists.mpr ⟨_, hl⟩

/-- The destination that `Copy` and `Move` may store under. -/
theorem overwrite_or_absent {options : OverwriteOptions} {destination : Path}
    (h : ¬(!options.overwrite && (objects.lookup destination.value).isSome) = true) :
    options.overwrite = true ∨ partialMap objects destination = none := by
  cases hoverwrite : options.overwrite with
  | true => exact .inl rfl
  | false =>
      rw [hoverwrite, Bool.not_false, Bool.true_and, Bool.not_eq_true,
        Option.isSome_eq_false_iff] at h
      exact .inr (Option.isNone_iff_eq_none.mp h)

theorem copy_spec (source destination : Path) (options : OverwriteOptions) :
    Call.Ensures (copy source destination options) env frame fun err frame' ↦
      (err ≠ none → frame'.store = frame.store) ∧ (err = none →
        (Op.copy source destination options).Effect env.now (partialMap frame.store)
          (partialMap frame'.store)) := by
  refine locked_spec (Q := (Op.copy source destination options).Effect env.now) ?_
  unfold copyLocked
  split
  · exact ⟨fun _ ↦ rfl, nofun⟩
  · rename_i stored hl
    split
    · exact ⟨fun _ ↦ rfl, nofun⟩
    · rename_i hfree
      refine ⟨fun herr ↦ absurd rfl herr, fun _ ↦ ?_⟩
      exact ⟨stored, hl, overwrite_or_absent hfree, partialMap_insert _ _ _⟩

theorem move_spec (source destination : Path) (options : OverwriteOptions) :
    Call.Ensures (move source destination options) env frame fun err frame' ↦
      (err ≠ none → frame'.store = frame.store) ∧ (err = none →
        (Op.move source destination options).Effect env.now (partialMap frame.store)
          (partialMap frame'.store)) := by
  refine locked_spec (Q := (Op.move source destination options).Effect env.now) ?_
  unfold moveLocked
  split
  · exact ⟨fun _ ↦ rfl, nofun⟩
  · rename_i stored hl
    split
    · exact ⟨fun _ ↦ rfl, nofun⟩
    · rename_i hfree
      split
      · rename_i heq
        refine ⟨fun herr ↦ absurd rfl herr, fun _ ↦ ?_⟩
        exact ⟨stored, hl, overwrite_or_absent hfree, .inl ⟨heq, rfl⟩⟩
      · rename_i hne
        refine ⟨fun herr ↦ absurd rfl herr, fun _ ↦ ?_⟩
        refine ⟨stored, hl, overwrite_or_absent hfree, .inr ⟨hne, ?_⟩⟩
        rw [partialMap_erase, partialMap_insert]

/-- `SetMetadata` and `SetVisibility` change the one object. -/
theorem touch_spec (path : Path) (change : Object → Object) :
    Call.Ensures (locked (touchLocked path change)) env frame fun err frame' ↦
      (err ≠ none → frame'.store = frame.store) ∧ (err = none →
        ∃ stored, partialMap frame.store path = some stored ∧ partialMap frame'.store =
          Function.update (partialMap frame.store) path
            (some { change stored with modified := env.now })) := by
  refine locked_spec (Q := fun m m' ↦ ∃ stored, m path = some stored ∧ m' =
    Function.update m path (some { change stored with modified := env.now })) ?_
  unfold touchLocked
  split
  · exact ⟨fun _ ↦ rfl, nofun⟩
  · rename_i stored hl
    refine ⟨fun herr ↦ absurd rfl herr, fun _ ↦ ⟨stored, hl, ?_⟩⟩
    exact partialMap_insert _ _ _

theorem setVisibility_spec (path : Path) (visibility : Visibility) :
    Call.Ensures (setVisibility path visibility) env frame fun err frame' ↦
      (err ≠ none → frame'.store = frame.store) ∧ (err = none →
        (Op.setVisibility path visibility).Effect env.now (partialMap frame.store)
          (partialMap frame'.store)) := by
  unfold setVisibility
  cases hnormalized : normalizeVisibility visibility with
  | error err => exact .pure ⟨fun _ ↦ rfl, nofun⟩
  | ok normalized =>
      refine (touch_spec path _).mono fun err frame' htouch ↦ ⟨htouch.1, fun herr ↦ ?_⟩
      obtain ⟨stored, hl, hm⟩ := htouch.2 herr
      exact ⟨stored, normalized, hl, hnormalized, hm⟩

theorem openWriter_store_eq (path : Path) (options : WriteOptions) :
    Call.Ensures (openWriter path options) env frame fun _ frame' ↦
      frame'.store = frame.store := by
  refine .bind_of_eq (ctxErr_apply env frame) ?_
  cases env.ctx frame.polls with
  | some err => exact .pure rfl
  | none =>
      dsimp only [Option.map_none]
      split <;> exact .pure rfl

end Methods

/-! ## Every operation -/

/-- One operation: an error leaves the map alone, and success has the effect of
the operation. -/
def Refines (now : Time) (objects objects' : Objects) (op : Op) (result : Result) : Prop :=
  (result.error ≠ none → objects' = objects) ∧
    (result.error = none → op.Effect now (partialMap objects) (partialMap objects'))

/-- An operation that only reads. -/
theorem refines_of_frames {op : Op} {env : Env} {frame : Frame Objects}
    {x : Method Objects (Result × List (OpenWriter Objects))}
    (hx : Obeys (.outside stored ∅) x fun _ ↦ True) (hop : ∀ now m, op.Effect now m m) :
    Call.Ensures x env frame fun r frame' ↦ Refines env.now frame.store frame'.store op r.1 := by
  refine (ensures_store_eq hx).mono fun r frame' hstore ↦ ?_
  rw [hstore]
  exact ⟨fun _ ↦ rfl, fun _ ↦ hop _ _⟩

theorem call_refines (hashes : Hashes) (op : Op) (writers : List (OpenWriter Objects)) (env : Env)
    (frame : Frame Objects) (hop : ∀ handle chunks, op ≠ .closeWriter handle chunks) :
    Call.Ensures (Client.call (backend hashes) writers op) env frame fun r frame' ↦
      Refines env.now frame.store frame'.store op r.1 := by
  cases op with
  | openPath path =>
      exact refines_of_frames ((reading_obeys path _ _).bind fun _ _ ↦ .pure trivial) fun _ _ ↦ rfl
  | openRange path byteRange =>
      exact refines_of_frames ((openRange_obeys path byteRange).bind fun _ _ ↦ .pure trivial)
        fun _ _ ↦ rfl
  | write path source options =>
      exact (write_spec path source options).bind fun r frame' hwrite ↦ .pure hwrite
  | openWriter path options =>
      refine (openWriter_store_eq path options).bind fun r frame' hstore ↦ ?_
      cases r with
      | error err => exact .pure ⟨fun _ ↦ hstore, nofun⟩
      | ok writer => exact .pure ⟨fun _ ↦ hstore, fun _ ↦ congrArg partialMap hstore⟩
  | closeWriter handle chunks => exact absurd rfl (hop handle chunks)
  | delete path => exact (delete_spec path).bind fun r frame' hdelete ↦ .pure hdelete
  | list directory options =>
      exact refines_of_frames ((list_obeys (.inl trivial) directory options).bind
        fun _ _ ↦ .pure trivial) fun _ _ ↦ rfl
  | stat path =>
      exact refines_of_frames ((reading_obeys path _ _).bind fun _ _ ↦ .pure trivial) fun _ _ ↦ rfl
  | copy source destination options =>
      exact (copy_spec source destination options).bind fun r frame' hcopy ↦ .pure hcopy
  | move source destination options =>
      exact (move_spec source destination options).bind fun r frame' hmove ↦ .pure hmove
  | setMetadata path metadata =>
      exact (touch_spec path _).bind fun r frame' htouch ↦ .pure htouch
  | checksum path algorithm =>
      exact refines_of_frames ((reading_obeys path _ _).bind fun _ _ ↦ .pure trivial) fun _ _ ↦ rfl
  | visibility path =>
      exact refines_of_frames (((backend_frames hashes ∅).visibility path trivial).bind
        fun _ _ ↦ .pure trivial) fun _ _ ↦ rfl
  | setVisibility path visibility =>
      exact (setVisibility_spec path visibility).bind fun r frame' hset ↦ .pure hset
  | temporaryURL path lifetime options => exact .pure ⟨fun _ ↦ rfl, fun _ ↦ rfl⟩

/-- The adapter refines a partial map: in every reachable state the objects map
is determined by its partial map, an operation that returns an error leaves it
exactly as it was, and one that succeeds has its effect on the partial map. -/
theorem refines_partialMap (hashes : Hashes) {steps : List (Op × Env)}
    {client next : Client Objects} {op : Op} {env : Env} {result : Result} {events : List Event}
    (hrun : Client.run (backend hashes) steps { store := new } = some client)
    (hop : ∀ handle chunks, op ≠ .closeWriter handle chunks)
    (h : Client.perform (backend hashes) op env client = some (result, events, next)) :
    PathKeys client.store ∧ PathKeys next.store ∧
      (result.error ≠ none → next.store = client.store) ∧
      (result.error = none →
        op.Effect env.now (partialMap client.store) (partialMap next.store)) := by
  obtain ⟨hkeys, hw⟩ := run_pathKeys hrun pathKeys_new writersObey_nil
  obtain ⟨hkeys', -⟩ := perform_pathKeys hkeys hw h
  obtain ⟨⟨⟨r, writers⟩, frame⟩, hcall, heq⟩ := Option.map_eq_some_iff.mp h
  obtain ⟨rfl, heq'⟩ := Prod.mk.inj heq
  obtain ⟨-, rfl⟩ := Prod.mk.inj heq'
  exact ⟨hkeys, hkeys', call_refines hashes op client.writers env _ hop _ _ hcall⟩

/-- Moving a stored object to another path. -/
theorem refines_partialMap_move :
    let env : Env := ⟨fun _ ↦ none, 0, (KeyOrder.increasing Str).toIterOrder,
      (KeyOrder.increasing Str).toIterOrder⟩
    ∃ client next : Client Objects, ∃ events,
      Client.run (backend ⟨id, id, fun _ ↦ 0⟩) [(.write .a { last := .lit "x" } {}, env)]
        { store := new } = some client ∧
      Client.perform (backend ⟨id, id, fun _ ↦ 0⟩) (.move .a .b {}) env client =
        some (.done none, events, next) ∧
      (Op.move .a .b {}).Effect 0 (partialMap client.store) (partialMap next.store) := by
  intro env
  let steps : List (Op × Env) := [(.write .a { last := .lit "x" } {}, env)]
  obtain ⟨client, hrun⟩ : ∃ client,
      Client.run (backend ⟨id, id, fun _ ↦ 0⟩) steps { store := new } = some client := ⟨_, rfl⟩
  obtain ⟨next, events, hperform⟩ : ∃ next events,
      Client.perform (backend ⟨id, id, fun _ ↦ 0⟩) (.move .a .b {}) env client =
        some (.done none, events, next) := by
    cases hrun
    exact ⟨_, _, rfl⟩
  refine ⟨client, next, events, hrun, hperform, ?_⟩
  exact (refines_partialMap _ hrun (by nofun) hperform).2.2.2 rfl

end GoFilesystem.Memory
