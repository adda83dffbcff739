import GoFilesystem.Memory.Effects

/-!
# The keys of the objects map

`List` builds the path of every entry it returns with `MustParsePath`, so it
panics on a map that holds a key no path has as its string.  No comment of the
source says that such a key cannot occur; what keeps it out is that every
method stores under the string of a path, together with the checks that keep
the root out.  `Write` and `OpenWriter` have such a check.  `Copy` and `Move`
do not, and a copy or move of an existing object to the root stores it under
the empty string.  This is the only way such a key gets in.
-/

namespace GoFilesystem.Memory

open Go Method

theorem keysValid_new : KeysValid new := by
  intro name stored h
  rw [new, Finmap.lookup_empty] at h
  contradiction

variable {objects : Objects}

theorem KeysValid.insert (h : KeysValid objects) {name : Str} (hname : NormalForm name)
    (stored : Object) : KeysValid (objects.insert name stored) := by
  intro name' stored' hl
  by_cases heq : name' = name
  · exact heq ▸ hname
  · rw [Finmap.lookup_insert_of_ne _ heq] at hl
    exact h name' stored' hl

theorem KeysValid.erase (h : KeysValid objects) (name : Str) : KeysValid (objects.erase name) := by
  intro name' stored' hl
  by_cases heq : name' = name
  · rw [heq, Finmap.lookup_erase] at hl
    contradiction
  · rw [Finmap.lookup_erase_ne heq] at hl
    exact h name' stored' hl

/-- The string of a path under which something is stored is a normal form. -/
theorem KeysValid.ne_root (h : KeysValid objects) {path : Path} {stored : Object}
    (hl : objects.lookup path.value = some stored) : path ≠ .root := by
  rintro rfl
  exact (h _ _ hl).ne_nil rfl

/-- The invariant survives everything but storing under the root. -/
theorem keysValid_admits {A : Access} (hA : ∀ path, A.creates path → path ≠ .root) :
    Admits (.keeping KeysValid) A where
  write stored h _ hpath := ⟨KeysValid.insert h (Path.normalForm hpath) stored, trivial⟩
  remove h _ := ⟨KeysValid.erase h _, trivial⟩
  create stored h hp := ⟨KeysValid.insert h (Path.normalForm (hA _ hp)) stored, trivial⟩
  modify stored h _ hl := ⟨KeysValid.insert h (h _ _ hl) stored, trivial⟩
  list := .inr fun _ h ↦ h

/-! ## Listing an invalid key -/

theorem entryFor_empty_key (recursive : Bool) (stored : Object) :
    entryFor [] recursive [] stored = Call.panic := by
  cases recursive <;> rfl

/-- The loop of `List` over everything panics when it comes to an empty key. -/
theorem collect_of_empty_key {recursive : Bool} {stored : Object} {pairs : List (Str × Object)}
    (h : ([], stored) ∈ pairs) (entriesByPath : EntryMap) (env : Env) (frame : Frame Objects) :
    collect [] recursive pairs entriesByPath env frame = none := by
  induction pairs generalizing entriesByPath frame with
  | nil => simp at h
  | cons p pairs ih =>
      obtain ⟨name, stored'⟩ := p
      rcases List.mem_cons.mp h with heq | hmem
      · cases heq
        rw [collect, entryFor_empty_key]
        rfl
      · rw [collect, Call.bind_apply]
        cases entryFor [] recursive name stored' env frame with
        | none => rfl
        | some r =>
            obtain ⟨found, frame'⟩ := r
            cases found with
            | none => exact ih hmem _ _
            | some found => exact ih hmem _ _

/-- Anything stored under the empty string makes a listing of the root panic. -/
theorem list_root_of_empty_key {stored : Object} (h : objects.lookup [] = some stored) {env : Env}
    (henv : env.ctx 0 = none) (options : ListOptions) (hlimit : 0 ≤ options.limit) :
    list .root options env { store := objects } = none := by
  have hlist : list .root options env { store := objects } =
      (collect [] options.recursive (GoMap.range env.objectsOrder objects) ∅ env
        { store := objects, polls := 1 }).bind fun p ↦
          some ((snapshot env.entriesOrder options.limit p.1, none), p.2) := by
    simp only [list, ctxErr, Call.bind_apply, henv, Option.map_none, Option.bind_some,
      if_neg (not_lt.mpr hlimit)]
    rfl
  rw [hlist, collect_of_empty_key (GoMap.mem_range.mpr h)]
  rfl

/-! ## Runs -/

/-- A client whose map has valid keys and whose writers will keep it so. -/
structure ClientValid (client : Client Objects) : Prop where
  keys : KeysValid client.store
  writers : WritersObey (.keeping KeysValid) client.writers

/-- The copy or move of an existing object to the root, under a live context. -/
def PublishesRoot (objects : Objects) (step : Op × Env) : Prop :=
  match step.1 with
  | .copy source destination _ | .move source destination _ =>
    destination = .root ∧ step.2.ctx 0 = none ∧ (objects.lookup source.value).isSome
  | _ => False

/-- What a client's operation does that runs one locked step. -/
theorem perform_locked (hashes : Hashes) (client : Client Objects) (op : Op)
    (body : Time → Objects → Option Err × Objects)
    (hop : Client.call (backend hashes) client.writers op =
      locked body >>= fun err ↦ pure (.done err, client.writers)) (env : Env) :
    ∃ result, Client.perform (backend hashes) op env client = some (result, [],
      { store := if env.ctx 0 = none then (body env.now client.store).2 else client.store,
        writers := client.writers }) := by
  rw [Client.perform, hop, Call.bind_apply, locked_apply]
  cases henv : env.ctx 0 with
  | none => exact ⟨_, rfl⟩
  | some err => exact ⟨_, rfl⟩

/-- A locked step that changes nothing unless it publishes. -/
theorem perform_locked_valid (hashes : Hashes) {client : Client Objects} (h : ClientValid client)
    {op : Op} {env : Env} (source : Path) {body : Time → Objects → Option Err × Objects}
    (hop : Client.call (backend hashes) client.writers op =
      locked body >>= fun err ↦ pure (.done err, client.writers))
    (hmissing : client.store.lookup source.value = none →
      (body env.now client.store).2 = client.store)
    (hlive : ¬(env.ctx 0 = none ∧ (client.store.lookup source.value).isSome)) :
    ∃ result events client', Client.perform (backend hashes) op env client =
      some (result, events, client') ∧ ClientValid client' := by
  obtain ⟨result, hperform⟩ := perform_locked hashes client op body hop env
  refine ⟨result, _, _, hperform, ?_, h.writers⟩
  dsimp only
  split
  · rename_i hctx
    rw [hmissing (Option.not_isSome_iff_eq_none.mp fun hs ↦ hlive ⟨hctx, hs⟩)]
    exact h.keys
  · exact h.keys

/-- One operation of a client. -/
theorem perform_valid (hashes : Hashes) {client : Client Objects} (h : ClientValid client)
    {op : Op} {env : Env} (hop : ¬PublishesRoot client.store (op, env)) :
    ∃ result events client', Client.perform (backend hashes) op env client =
      some (result, events, client') ∧ ClientValid client' := by
  by_cases hallowed : op.Allowed { creates := (· ≠ .root) }
  · have hcall := call_obeys (backend_obeys (keysValid_admits fun _ hp ↦ hp) hashes) h.writers
      hallowed
    obtain ⟨r, frame, hret, ⟨hk, -⟩, hw⟩ :=
      hcall.returns id env (s := { store := client.store }) h.keys
    exact ⟨r.1, frame.events, ⟨frame.store, r.2⟩, by rw [Client.perform, hret]; rfl, hk, hw⟩
  · cases op with
    | copy source destination options =>
        simp only [Op.Allowed, true_and, not_not] at hallowed
        exact perform_locked_valid hashes h source rfl
          (fun hl ↦ by rw [copyLocked, hl]) fun hlive ↦ hop ⟨hallowed, hlive⟩
    | move source destination options =>
        simp only [Op.Allowed, true_and, not_not] at hallowed
        exact perform_locked_valid hashes h source rfl
          (fun hl ↦ by rw [moveLocked, hl]) fun hlive ↦ hop ⟨hallowed, hlive⟩
    | _ => simp [Op.Allowed] at hallowed

/-- The string of a path other than the root, which `ParsePath` accepts. -/
def IsPathString (name : Str) : Prop :=
  ∃ path : Path, path ≠ .root ∧ path.value = name ∧ parsePath name = .ok path

theorem isPathString_iff {name : Str} : IsPathString name ↔ NormalForm name := by
  constructor
  · rintro ⟨path, hne, rfl, -⟩
    exact path.normalForm hne
  · intro h
    exact ⟨⟨name, .inr h⟩, fun heq ↦ h.ne_nil (congrArg Path.value heq), rfl, h.parsePath_eq⟩

/-- Every key is the string of a path, and no listing panics. -/
def Listable (objects : Objects) : Prop :=
  (∀ name ∈ objects, IsPathString name) ∧
    ∀ directory options env, 0 ≤ options.limit →
      list directory options env { store := objects } ≠ none

theorem listable_iff : Listable objects ↔ KeysValid objects := by
  constructor
  · intro h name stored hl
    exact isPathString_iff.mp (h.1 name (Finmap.mem_iff.mpr ⟨stored, hl⟩))
  · intro h
    refine ⟨fun name hmem ↦ ?_, fun directory options env _ hpanic ↦ ?_⟩
    · obtain ⟨stored, hl⟩ := Finmap.mem_iff.mp hmem
      exact isPathString_iff.mpr (h name stored hl)
    · obtain ⟨a, frame, hret, -⟩ := (list_obeys (D := .keeping KeysValid) (.inr fun _ h ↦ h)
        directory options).returns id env (s := { store := objects }) h
      rw [hret] at hpanic
      contradiction

theorem KeysValid.lookup_empty_key (h : KeysValid objects) : objects.lookup [] = none := by
  rw [Option.eq_none_iff_forall_not_mem]
  exact fun stored hl ↦ (h [] stored hl).ne_nil rfl

theorem copyLocked_root (h : KeysValid objects) {source : Path}
    (hs : (objects.lookup source.value).isSome) (options : OverwriteOptions) (now : Time) :
    ((copyLocked source .root options now objects).2.lookup []).isSome := by
  obtain ⟨stored, hl⟩ := Option.isSome_iff_exists.mp hs
  have hempty : objects.lookup Path.root.value = none := h.lookup_empty_key
  simp only [copyLocked, hl, hempty, Option.isSome_none, Bool.and_false, Bool.false_eq_true,
    if_false]
  exact Option.isSome_iff_exists.mpr ⟨_, Finmap.lookup_insert objects⟩

theorem moveLocked_root (h : KeysValid objects) {source : Path}
    (hs : (objects.lookup source.value).isSome) (options : OverwriteOptions) (now : Time) :
    ((moveLocked source .root options now objects).2.lookup []).isSome := by
  obtain ⟨stored, hl⟩ := Option.isSome_iff_exists.mp hs
  have hempty : objects.lookup Path.root.value = none := h.lookup_empty_key
  have hne : source ≠ .root := h.ne_root hl
  simp only [moveLocked, hl, hempty, hne, Option.isSome_none, Bool.and_false, Bool.false_eq_true,
    if_false]
  have hvalue : ([] : Str) ≠ source.value := fun heq ↦ hne (Path.ext heq.symm)
  rw [Finmap.lookup_erase_ne hvalue]
  exact Option.isSome_iff_exists.mpr ⟨_, Finmap.lookup_insert objects⟩

/-- Publishing the root from a map with valid keys leaves the empty key behind. -/
theorem perform_publishesRoot (hashes : Hashes) {client client' : Client Objects} {op : Op}
    {env : Env} (hk : KeysValid client.store) (hop : PublishesRoot client.store (op, env))
    (h : (Client.perform (backend hashes) op env client).map (fun r ↦ r.2.2) = some client') :
    (client'.store.lookup []).isSome := by
  cases op with
  | copy source destination options =>
      obtain ⟨rfl, hctx, hs⟩ := hop
      obtain ⟨result, hperform⟩ := perform_locked hashes client (.copy source .root options)
        (copyLocked source .root options) rfl env
      rw [hperform, if_pos hctx, Option.map_some, Option.some.injEq] at h
      subst h
      exact copyLocked_root hk hs options env.now
  | move source destination options =>
      obtain ⟨rfl, hctx, hs⟩ := hop
      obtain ⟨result, hperform⟩ := perform_locked hashes client (.move source .root options)
        (moveLocked source .root options) rfl env
      rw [hperform, if_pos hctx, Option.map_some, Option.some.injEq] at h
      subst h
      exact moveLocked_root hk hs options env.now
  | _ => exact hop.elim

/-- **The keys of the objects map.**  Along a run from `New`, every state is
reached without a panic, has only strings of paths as keys and can be listed,
if and only if no step of the run copies or moves an existing object to the
root. -/
theorem listable_run_iff (hashes : Hashes) (steps : List (Op × Env)) :
    (∀ n, ∃ client, Client.run (backend hashes) (steps.take n) { store := new } = some client ∧
      Listable client.store) ↔
    ∀ n client step, Client.run (backend hashes) (steps.take n) { store := new } = some client →
      steps[n]? = some step → ¬PublishesRoot client.store step := by
  constructor
  · intro h n client step hrun hstep hroot
    obtain ⟨client', hrun', hlistable⟩ := h (n + 1)
    obtain ⟨client₀, hrun₀, hlistable₀⟩ := h n
    rw [hrun₀, Option.some.injEq] at hrun
    subst hrun
    rw [Client.run_take_succ _ hstep, hrun₀] at hrun'
    have hsome := perform_publishesRoot hashes (listable_iff.mp hlistable₀) hroot hrun'
    rw [(listable_iff.mp hlistable).lookup_empty_key] at hsome
    contradiction
  · intro h n
    suffices hvalid : ∃ client, Client.run (backend hashes) (steps.take n) { store := new } =
        some client ∧ ClientValid client by
      obtain ⟨client, hrun, hclient⟩ := hvalid
      exact ⟨client, hrun, listable_iff.mpr hclient.keys⟩
    induction n with
    | zero => exact ⟨_, rfl, keysValid_new, writersObey_nil⟩
    | succ n ih =>
        obtain ⟨client, hrun, hclient⟩ := ih
        cases hstep : steps[n]? with
        | none =>
            refine ⟨client, ?_, hclient⟩
            rw [List.take_add_one, hstep, Option.toList_none, List.append_nil, hrun]
        | some step =>
            obtain ⟨op, env⟩ := step
            obtain ⟨_, _, client', hperform, hclient'⟩ :=
              perform_valid hashes hclient (h n client (op, env) hrun hstep)
            refine ⟨client', ?_, hclient'⟩
            rw [Client.run_take_succ _ hstep, hrun, Option.bind_some, hperform]
            rfl

/-- A run that writes `a` and copies it to the root. -/
def copyToRoot : List (Op × Env) :=
  let a : Path := .a
  let env : Env := ⟨fun _ ↦ none, 0, (KeyOrder.increasing Str).toIterOrder,
    (KeyOrder.increasing Str).toIterOrder⟩
  [(.write a { last := .lit "x" } {}, env), (.copy a .root {}, env)]

/-- After that run the empty string is a key, which is the string of no path
other than the root, and listing the root panics. -/
theorem copyToRoot_panics :
    ∃ client, Client.run (backend ⟨id, id, fun _ ↦ 0⟩) copyToRoot { store := new } = some client ∧
      [] ∈ client.store ∧ ¬IsPathString [] ∧
      ∀ env : Env, env.ctx 0 = none → list .root {} env { store := client.store } = none := by
  let stored : Object := ⟨.lit "x", none, [], .visibilityPrivate, 0⟩
  refine ⟨{ store := (new.insert (.lit "a") stored).insert [] stored }, rfl, ?_, ?_, ?_⟩
  · exact Finmap.mem_insert.mpr (.inl rfl)
  · exact fun h ↦ (isPathString_iff.mp h).ne_nil rfl
  · intro env henv
    exact list_root_of_empty_key (Finmap.lookup_insert (new.insert (.lit "a") stored))
      henv {} le_rfl

end GoFilesystem.Memory
