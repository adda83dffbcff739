import GoFilesystem.Access
import GoFilesystem.Decorator.Adapter
import GoFilesystem.Memory.Effects

/-!
# Where a decorated adapter acts

A decorator with a prefix calls its backend only with paths at or beneath the
prefix (`internal_eq`), and what it does to the backend's state is what the
backend does there (`decorate_obeys`).

The prefix is meant to isolate everything beneath it, so a decorated adapter
should change only objects strictly beneath the prefix.  The logical root is
mapped to the prefix itself, which is not beneath it.  `Write` and `OpenWriter`
reject the root; `Delete`, `Copy`, `Move`, `SetMetadata` and `SetVisibility`
pass it on, and so they reach the object stored at the prefix.
-/

namespace GoFilesystem.Decorator

open Go Method

/-! ## The path of the backend -/

/-- The path of the backend that `internal` returns. -/
def internalPath (prefixPath path : Path) : Path :=
  if hpref : prefixPath = .root then path
  else if hpath : path = .root then prefixPath
  else ⟨prefixPath.value ++ slash :: path.value,
    .inr (NormalForm.append (Path.normalForm hpref) (Path.normalForm hpath))⟩

variable {σ α : Type} {prefixPath path : Path}

/-- `internal` never panics. -/
theorem internal_eq (config : Config) (path : Path) :
    (internal config path : Method σ Path) = pure (internalPath config.prefixPath path) := by
  unfold internal internalPath
  by_cases hpref : config.prefixPath = .root
  · rw [if_pos (Path.isRoot_iff.mpr hpref), dif_pos hpref]
  · rw [if_neg (mt Path.isRoot_iff.mp hpref), dif_neg hpref]
    by_cases hpath : path = .root
    · rw [if_pos (Path.isRoot_iff.mpr hpath), dif_pos hpath]
    · rw [if_neg (mt Path.isRoot_iff.mp hpath), dif_neg hpath]
      exact (NormalForm.append (Path.normalForm hpref) (Path.normalForm hpath)).mustParsePath_eq

theorem internal_bind (config : Config) (path : Path) (f : Path → Method σ α) :
    internal config path >>= f = f (internalPath config.prefixPath path) := by
  rw [internal_eq, pure_bind]

/-- The name of an object strictly beneath a prefix. -/
def Beneath (prefixPath : Path) (name : Str) : Prop :=
  ∃ relative, relative ≠ [] ∧ name = prefixPath.value ++ slash :: relative

/-- The name of the prefix itself or of an object beneath it. -/
def AtOrBeneath (prefixPath : Path) (name : Str) : Prop :=
  name = prefixPath.value ∨ Beneath prefixPath name

theorem internalPath_root (h : prefixPath ≠ .root) :
    internalPath prefixPath .root = prefixPath := by
  rw [internalPath, dif_neg h, dif_pos rfl]

theorem beneath_internalPath (h : prefixPath ≠ .root) (hpath : path ≠ .root) :
    Beneath prefixPath (internalPath prefixPath path).value := by
  rw [internalPath, dif_neg h, dif_neg hpath]
  exact ⟨path.value, (Path.normalForm hpath).ne_nil, rfl⟩

theorem atOrBeneath_internalPath (h : prefixPath ≠ .root) (path : Path) :
    AtOrBeneath prefixPath (internalPath prefixPath path).value := by
  by_cases hpath : path = .root
  · exact .inl (by rw [hpath, internalPath_root h])
  · exact .inr (beneath_internalPath h hpath)

theorem not_beneath_self (prefixPath : Path) : ¬Beneath prefixPath prefixPath.value := by
  rintro ⟨relative, -, h⟩
  simpa using congrArg List.length h

theorem internalPath_ne_root (h : prefixPath ≠ .root ∨ path ≠ .root) :
    internalPath prefixPath path ≠ .root := by
  by_cases hpref : prefixPath = .root
  · rw [internalPath, dif_pos hpref]
    exact h.resolve_left (not_not.mpr hpref)
  · by_cases hpath : path = .root
    · rwa [hpath, internalPath_root hpref]
    · obtain ⟨relative, -, hvalue⟩ := beneath_internalPath hpref hpath
      intro hroot
      rw [hroot] at hvalue
      exact absurd hvalue (by simp [Path.root])

theorem internalPath_value (h : prefixPath ≠ .root) (hpath : path ≠ .root) :
    (internalPath prefixPath path).value = prefixPath.value ++ slash :: path.value := by
  rw [internalPath, dif_neg h, dif_neg hpath]

/-- `externalPath` undoes `internal`, and accepts nothing else. -/
theorem externalPath_eq_ok_iff {prefixPath path external : Path} :
    externalPath prefixPath path = .ok external ↔ internalPath prefixPath external = path := by
  unfold externalPath
  by_cases hpref : prefixPath = .root
  · rw [if_pos (Path.isRoot_iff.mpr hpref), internalPath, dif_pos hpref, Except.ok.injEq, eq_comm]
  rw [if_neg (mt Path.isRoot_iff.mp hpref)]
  constructor
  · intro h
    split_ifs at h with hself
    · cases h
      rw [internalPath_root hpref, hself]
    · split at h
      · contradiction
      · rename_i relative hcut
        have hvalue := cutPrefix_eq_some.mp hcut
        rw [List.append_assoc] at hvalue
        split at h
        · contradiction
        · rename_i parsed hparsed
          cases h
          have hnormal : NormalForm path.value := by
            refine path.normalForm fun hroot ↦ ?_
            rw [hroot] at hvalue
            exact absurd hvalue (by simp [Path.root])
          rw [hvalue] at hnormal
          have hsegments := hnormal.segments
          rw [List.singleton_append, List.splitOn_append_cons_self] at hsegments
          have hrelative := value_of_parsePath hparsed
            (fun s hs ↦ hsegments s (List.mem_append_right _ hs))
            (fun hb ↦ hnormal.noBackslash (by simp [hb]))
          apply Path.ext
          rw [internalPath_value hpref (ne_root_of_parsePath hparsed), hrelative, hvalue]
          rfl
  · rintro rfl
    by_cases hpath : external = .root
    · rw [hpath, internalPath_root hpref, if_pos rfl]
    · have hbeneath := beneath_internalPath hpref hpath
      have hself : internalPath prefixPath external ≠ prefixPath := by
        intro heq
        rw [heq] at hbeneath
        exact not_beneath_self _ hbeneath
      have hcut : cutPrefix (prefixPath.value ++ [slash]) (internalPath prefixPath external).value =
          some external.value := by
        rw [cutPrefix_eq_some, internalPath_value hpref hpath, List.append_assoc]
        rfl
      rw [if_neg hself, hcut]
      simp only [(Path.normalForm hpath).parsePath_eq]

theorem internalPath_injective (prefixPath : Path) :
    Function.Injective (internalPath prefixPath) := by
  intro path path' h
  have hpath : externalPath prefixPath (internalPath prefixPath path') = .ok path :=
    externalPath_eq_ok_iff.mpr h
  rw [externalPath_eq_ok_iff.mpr rfl] at hpath
  exact (Except.ok.inj hpath).symm

/-- Every path that `externalPath` rejects is an invalid path to the caller. -/
theorem is_of_externalPath {err : Err} (h : externalPath prefixPath path = .error err)
    (target : Sentinel) : err.is target = (Sentinel.invalidPath == target) := by
  unfold externalPath at h
  split_ifs at h
  split at h
  · cases h
    rfl
  · split at h
    · cases h
      rfl
    · contradiction

/-! ## Disciplines through a decorator -/

variable {D : Call.Discipline σ} {A : Access} {V : α → Prop} {config : Config}
  {operation : Operation} {b : Backend σ}

theorem observeCall_obeys {path destination : Path} {errOf : α → Option Err} {call : Method σ α}
    (h : Obeys D call V) :
    Obeys D (observeCall config operation path destination errOf call) V := by
  refine h.bind fun result hresult ↦ ?_
  split
  · exact (obeys_emit _).bind fun _ _ ↦ .pure hresult
  · exact .pure hresult

theorem retryFrom_obeys (policy : RetryPolicy) (zero : α) {call : Method σ (α × Option Err)}
    (h : Obeys D call fun _ ↦ True) (remaining : Nat) :
    Obeys D (retryFrom policy zero call remaining) fun _ ↦ True := by
  induction remaining with
  | zero =>
      refine obeys_ctxErr.bind fun err _ ↦ ?_
      cases err with
      | some err => exact .pure trivial
      | none => exact h
  | succ remaining ih =>
      refine obeys_ctxErr.bind fun err _ ↦ ?_
      cases err with
      | some err => exact .pure trivial
      | none =>
          refine h.bind fun result _ ↦ ?_
          obtain ⟨result, err⟩ := result
          cases err with
          | none => exact .pure trivial
          | some err =>
              dsimp only
              split
              · exact .pure trivial
              · cases policy.backoff with
                | none => exact ih
                | some delay =>
                    refine obeys_ctxErr.bind fun err _ ↦ ?_
                    cases err with
                    | some err => exact .pure trivial
                    | none => exact ih

theorem retryCall_obeys {zero : α} {call : Method σ (α × Option Err)}
    (h : Obeys D call fun _ ↦ True) : Obeys D (retryCall config zero call) fun _ ↦ True := by
  unfold retryCall
  cases config.retry with
  | none => exact h
  | some policy => exact retryFrom_obeys policy zero h _

theorem guarded_obeys {capability : Capability} {reject : Err → α} {call : Method σ α}
    (hreject : ∀ err, V (reject err)) (h : ¬config.readOnly → Obeys D call V) :
    Obeys D (guarded config capability operation reject call) V := by
  unfold guarded
  split
  · exact .pure (hreject _)
  · rename_i hwritable
    exact h hwritable

/-- How a decorated adapter uses its paths if its backend is used as `A` says. -/
def through (config : Config) (A : Access) : Access where
  reads path := A.reads (internalPath config.prefixPath path)
  writes path := config.readOnly ∨ path = .root ∨ A.writes (internalPath config.prefixPath path)
  removes path := config.readOnly ∨ A.removes (internalPath config.prefixPath path)
  creates path := config.readOnly ∨ A.creates (internalPath config.prefixPath path)
  modifies path := config.readOnly ∨ A.modifies (internalPath config.prefixPath path)

theorem internal_obeys {f : Path → Method σ α}
    (h : Obeys D (f (internalPath config.prefixPath path)) V) :
    Obeys D (internal config path >>= f) V := by
  rwa [internal_bind]

theorem streamChecksum_obeys (hashes : Hashes) (config : Config)
    (h : Obeys D (b.openPath (internalPath config.prefixPath path)) fun _ ↦ True)
    (algorithm : ChecksumAlgorithm) :
    Obeys D (streamChecksum hashes config b path algorithm) fun _ ↦ True := by
  unfold streamChecksum
  cases digest hashes algorithm with
  | none => exact .pure trivial
  | some sum =>
      refine internal_obeys (h.bind fun opened _ ↦ ?_)
      obtain ⟨stream, err⟩ := opened
      cases err with
      | some err => exact .pure trivial
      | none =>
          dsimp only
          split
          · exact .pure trivial
          · split <;> exact .pure trivial

/-- A decorated adapter obeys what its backend obeys. -/
theorem decorate_obeys (hashes : Hashes) (config : Config) (h : b.Obeys D A) :
    (decorate hashes config b).Obeys D (through config A) where
  openPath _ hp := observeCall_obeys <| retryCall_obeys <| internal_obeys (h.openPath _ hp)
  openRange _ byteRange hp :=
    observeCall_obeys <| retryCall_obeys <| internal_obeys (h.openRange _ byteRange hp)
  write path source options hp := by
    refine observeCall_obeys <| guarded_obeys (fun _ ↦ trivial) fun hwritable ↦ ?_
    split
    · exact .pure trivial
    · rename_i hroot
      have hw := (hp.resolve_left hwritable).resolve_left (mt Path.isRoot_iff.mpr hroot)
      exact internal_obeys <| (h.write _ source options hw).bind fun _ _ ↦ .pure trivial
  openWriter path options hp := by
    refine observeCall_obeys <| guarded_obeys (fun _ ↦ trivial) fun hwritable ↦ ?_
    split
    · exact .pure trivial
    · rename_i hroot
      have hw := (hp.resolve_left hwritable).resolve_left (mt Path.isRoot_iff.mpr hroot)
      exact internal_obeys (h.openWriter _ options hw)
  delete _ hp := observeCall_obeys <| guarded_obeys (fun _ ↦ trivial) fun hwritable ↦
    internal_obeys (h.delete _ (hp.resolve_left hwritable))
  list _ options hp := by
    refine observeCall_obeys ?_
    refine (retryCall_obeys <| internal_obeys (h.list _ options hp)).bind fun r _ ↦ ?_
    obtain ⟨inner, err⟩ := r
    cases err <;> exact .pure trivial
  stat _ hp := observeCall_obeys <|
    (retryCall_obeys <| internal_obeys (h.stat _ hp)).bind fun _ _ ↦ .pure trivial
  copy _ _ options hs hd := observeCall_obeys <| guarded_obeys (fun _ ↦ trivial) fun hwritable ↦
    internal_obeys <| internal_obeys (h.copy _ _ options hs (hd.resolve_left hwritable))
  move _ _ options hs hd := observeCall_obeys <| guarded_obeys (fun _ ↦ trivial) fun hwritable ↦
    internal_obeys <| internal_obeys
      (h.move _ _ options (hs.resolve_left hwritable) (hd.resolve_left hwritable))
  setMetadata _ metadata hp := observeCall_obeys <| guarded_obeys (fun _ ↦ trivial)
    fun hwritable ↦ internal_obeys (h.setMetadata _ metadata (hp.resolve_left hwritable))
  checksum _ algorithm hp := by
    refine observeCall_obeys <| retryCall_obeys ?_
    split
    · exact streamChecksum_obeys hashes config (h.openPath _ hp) algorithm
    · exact internal_obeys (h.checksum _ algorithm hp)
  visibility _ hp := observeCall_obeys <| guarded_obeys (fun _ ↦ trivial) fun _ ↦
    retryCall_obeys <| internal_obeys (h.visibility _ hp)
  setVisibility _ visibility hp := observeCall_obeys <| guarded_obeys (fun _ ↦ trivial)
    fun hwritable ↦ internal_obeys (h.setVisibility _ visibility (hp.resolve_left hwritable))
  temporaryURL sign hsign path lifetime options hp := by
    obtain rfl := Option.mem_some_iff.mp hsign
    refine observeCall_obeys ?_
    cases hb : b.temporaryURL with
    | none => exact .pure trivial
    | some sign =>
        exact retryCall_obeys <| internal_obeys (h.temporaryURL sign hb _ lifetime options hp)

/-! ## Changes strictly beneath the prefix -/

/-- The operations that change the object at the logical root, as far as the
decorator is concerned: it rejects only writes to the root. -/
def ActsOnRoot : Op → Prop
  | .delete path | .setMetadata path _ | .setVisibility path _ => path = .root
  | .copy _ destination _ => destination = .root
  | .move source destination _ => source = .root ∨ destination = .root
  | _ => False

/-- Every writer the client holds was opened through the adapter. -/
def OpenedThrough (b : Backend σ) (client : Client σ) : Prop :=
  ∀ opened ∈ client.writers, ∃ path options env frame frame',
    b.openWriter path options env frame = some (.ok opened.writer, frame')

/-- The access to the backend that reaches names beneath the prefix only. -/
theorem allowed_of_not_actsOnRoot (hpref : config.prefixPath ≠ .root) {op : Op}
    (h : config.readOnly ∨ ¬ActsOnRoot op) :
    op.Allowed (through config (.within {name | Beneath config.prefixPath name})) := by
  have hpath : ∀ {path : Path}, config.readOnly ∨ path ≠ .root → config.readOnly ∨
      Beneath config.prefixPath (internalPath config.prefixPath path).value :=
    Or.imp_right (beneath_internalPath hpref)
  have hwrite : ∀ path : Path, config.readOnly ∨ path = .root ∨
      Beneath config.prefixPath (internalPath config.prefixPath path).value := by
    intro path
    by_cases hroot : path = .root
    · exact .inr (.inl hroot)
    · exact .inr (.inr (beneath_internalPath hpref hroot))
  cases op with
  | write path source options => exact hwrite path
  | openWriter path options => exact hwrite path
  | delete path => exact hpath h
  | copy source destination options => exact ⟨trivial, hpath h⟩
  | move source destination options =>
      have h' := h.imp_right not_or.mp
      exact ⟨hpath (h'.imp_right And.left), hpath (h'.imp_right And.right)⟩
  | setMetadata path metadata => exact hpath h
  | setVisibility path visibility => exact hpath h
  | _ => trivial

/-- A writer opened through the decorator publishes beneath the prefix. -/
theorem OpenedThrough.obeys {hashes : Hashes} {client : Client σ}
    (h : OpenedThrough (decorate hashes config b) client) {ω : Type} {view : σ → Str → ω}
    (hb : b.Frames view) (hpref : config.prefixPath ≠ .root) :
    WritersObey (.outside view {name | Beneath config.prefixPath name}) client.writers := by
  intro opened hmem
  obtain ⟨path, options, env, frame, frame', hopen⟩ := h opened hmem
  have hallowed : (Op.openWriter path options).Allowed _ :=
    allowed_of_not_actsOnRoot hpref (.inr id)
  have hout := (decorate_obeys hashes config (hb _)).openWriter path options hallowed env frame
    trivial
  rw [hopen] at hout
  exact hout.2

/-- An operation that does not act on the logical root changes only objects
strictly beneath the prefix, whatever the backend. -/
theorem perform_beneath {hashes : Hashes} (hpref : config.prefixPath ≠ .root) {op : Op}
    (hop : config.readOnly ∨ ¬ActsOnRoot op) {ω : Type} {view : σ → Str → ω} (hb : b.Frames view)
    {client client' : Client σ} {env : Env} {result : Result} {events : List Event}
    (hopened : OpenedThrough (decorate hashes config b) client)
    (h : Client.perform (decorate hashes config b) op env client = some (result, events, client'))
    {name : Str} (hname : ¬Beneath config.prefixPath name) :
    view client'.store name = view client.store name := by
  obtain ⟨⟨r, frame⟩, hcall, heq⟩ := Option.map_eq_some_iff.mp h
  have hout := call_obeys (decorate_obeys hashes config (hb _)) (hopened.obeys hb hpref)
    (allowed_of_not_actsOnRoot hpref hop) env { store := client.store } trivial
  rw [hcall] at hout
  simp only [Prod.mk.injEq] at heq
  rw [← heq.2.2]
  exact hout.1.2 name hname

/-! ## A backend that counts changes -/

def bump (path : Path) (counts : Str → Nat) : Str → Nat :=
  Function.update counts path.value (counts path.value + 1)

/-- The backend that keeps, for each name, how often it was told to change the
object there, and does nothing else. -/
def tally : Backend (Str → Nat) where
  capabilities := []
  openPath _ := return ({}, none)
  openRange _ _ := return ({}, none)
  write path _ _ := modify fun counts ↦ (({}, none), bump path counts)
  openWriter path _ := return .ok ⟨fun _ ↦ modify fun counts ↦ (none, bump path counts)⟩
  delete path := modify fun counts ↦ (none, bump path counts)
  list _ _ := return ({}, none)
  stat _ := return ({}, none)
  copy _ destination _ := modify fun counts ↦ (none, bump destination counts)
  move source destination _ := modify fun counts ↦ (none, bump destination (bump source counts))
  setMetadata path _ := modify fun counts ↦ (none, bump path counts)
  checksum _ _ := return ({}, none)
  visibility _ := return (.unset, none)
  setVisibility path _ := modify fun counts ↦ (none, bump path counts)
  temporaryURL := none

theorem tally_frames : tally.Frames fun counts name ↦ counts name := by
  intro K
  have hbump : ∀ {path : Path} (counts : Str → Nat), path.value ∈ K →
      (Call.Discipline.outside (fun (counts : Str → Nat) name ↦ counts name) K).Allows counts
        (bump path counts) := by
    intro path counts hpath
    exact ⟨trivial, fun k hk ↦ Function.update_of_ne (ne_of_mem_of_not_mem hpath hk).symm _ _⟩
  have hmodify : ∀ {α : Type} {path : Path} (a : α), path.value ∈ K →
      Obeys (.outside (fun (counts : Str → Nat) name ↦ counts name) K)
        (modify fun counts ↦ (a, bump path counts)) fun _ ↦ True :=
    fun _ hp ↦ obeys_modify fun counts _ ↦ hbump counts hp
  exact {
    openPath := fun _ _ ↦ .pure trivial
    openRange := fun _ _ _ ↦ .pure trivial
    write := fun _ _ _ hp ↦ hmodify _ hp
    openWriter := fun _ _ hp ↦ .pure fun _ ↦ hmodify _ hp
    delete := fun _ hp ↦ hmodify _ hp
    list := fun _ _ _ ↦ .pure trivial
    stat := fun _ _ ↦ .pure trivial
    copy := fun _ _ _ _ hd ↦ hmodify _ hd
    move := fun source destination _ hs hd ↦
      obeys_modify (f := fun counts ↦ (none, bump destination (bump source counts)))
        fun counts _ ↦ (hbump counts hs).trans (hbump _ hd)
    setMetadata := fun _ _ hp ↦ hmodify _ hp
    checksum := fun _ _ _ ↦ .pure trivial
    visibility := fun _ _ ↦ .pure trivial
    setVisibility := fun _ _ hp ↦ hmodify _ hp
    temporaryURL := fun _ hsign ↦ by simp [tally] at hsign }

theorem le_bump (path : Path) (counts : Str → Nat) (name : Str) :
    counts name ≤ bump path counts name := by
  unfold bump
  rw [Function.update_apply]
  split
  · rename_i h
    rw [h]
    exact Nat.le_succ _
  · exact le_rfl

/-- What a client sees of an operation that a writable decorator passes on. -/
theorem perform_guarded {hashes : Hashes} (hwritable : ¬config.readOnly) {client : Client σ}
    {op : Op} {capability : Capability} {path destination : Path} {call : Method σ (Option Err)}
    {env : Env} {err : Option Err} {frame : Frame σ}
    (hcall : call env { store := client.store } = some (err, frame))
    (hop : Client.call (decorate hashes config b) client.writers op =
      observeCall config operation path destination id
        (guarded config capability operation some call) >>= fun err ↦
          pure (.done err, client.writers)) :
    ∃ events, Client.perform (decorate hashes config b) op env client =
      some (.done err, events, { store := frame.store, writers := client.writers }) := by
  rw [Client.perform, hop, observeCall, guarded, if_neg hwritable]
  simp only [Call.bind_apply, hcall, Option.bind_some]
  split
  · exact ⟨_, rfl⟩
  · exact ⟨_, rfl⟩

/-- An operation on the logical root is counted at the prefix. -/
theorem tally_actsOnRoot (hashes : Hashes) (hpref : config.prefixPath ≠ .root)
    (hwritable : ¬config.readOnly) {op : Op} (hop : ActsOnRoot op) (env : Env)
    (client : Client (Str → Nat)) :
    ∃ result events client', Client.perform (decorate hashes config tally) op env client =
        some (result, events, client') ∧
      client.store config.prefixPath.value < client'.store config.prefixPath.value := by
  -- every case is one call of the backend; `counted` reads its count off the call
  have counted : ∀ {capability operation path destination} {call : Method (Str → Nat) (Option Err)}
      {counts : Str → Nat},
      Client.call (decorate hashes config tally) client.writers op =
        observeCall config operation path destination id
          (guarded config capability operation some call) >>= (fun err ↦
            pure (.done err, client.writers)) →
      call env { store := client.store } = some (none, { store := counts }) →
      client.store config.prefixPath.value < counts config.prefixPath.value →
      ∃ result events client', Client.perform (decorate hashes config tally) op env client =
          some (result, events, client') ∧
        client.store config.prefixPath.value < client'.store config.prefixPath.value := by
    intro capability operation path destination call counts hclient hcall hlt
    obtain ⟨events, hperform⟩ := perform_guarded hwritable hcall hclient
    exact ⟨_, events, _, hperform, hlt⟩
  have hself : ∀ counts : Str → Nat, counts config.prefixPath.value <
      bump config.prefixPath counts config.prefixPath.value := by
    intro counts
    rw [bump, Function.update_self]
    exact Nat.lt_succ_self _
  cases op with
  | delete path =>
      obtain rfl : path = .root := hop
      refine counted rfl (by rw [internal_bind, internalPath_root hpref]; rfl) (hself _)
  | setMetadata path metadata =>
      obtain rfl : path = .root := hop
      refine counted rfl (by rw [internal_bind, internalPath_root hpref]; rfl) (hself _)
  | setVisibility path visibility =>
      obtain rfl : path = .root := hop
      refine counted rfl (by rw [internal_bind, internalPath_root hpref]; rfl) (hself _)
  | copy source destination options =>
      obtain rfl : destination = .root := hop
      refine counted rfl (by rw [internal_bind, internal_bind, internalPath_root hpref]; rfl)
        (hself _)
  | move source destination options =>
      rcases hop with rfl | rfl
      · refine counted rfl (by rw [internal_bind, internal_bind, internalPath_root hpref]; rfl) ?_
        exact lt_of_lt_of_le (hself _) (le_bump _ _ _)
      · refine counted rfl (by rw [internal_bind, internal_bind, internalPath_root hpref]; rfl) ?_
        exact lt_of_le_of_lt (le_bump _ _ _) (hself _)
  | _ => exact hop.elim

/-- Over every backend whose methods change only the objects they are called
with, and from every state, the operation of the decorated adapter changes only
objects strictly beneath the prefix. -/
def ChangesOnlyBeneath (hashes : Hashes) (config : Config) (op : Op) : Prop :=
  ∀ (σ ω : Type) (b : Backend σ) (view : σ → Str → ω), b.Frames view →
    ∀ (client client' : Client σ) (env : Env) (result : Result) (events : List Event),
      OpenedThrough (decorate hashes config b) client →
      Client.perform (decorate hashes config b) op env client = some (result, events, client') →
      ∀ name, ¬Beneath config.prefixPath name → view client'.store name = view client.store name

/-- **Changes beneath the prefix.**  For a prefix other than the root, an
operation changes only objects strictly beneath the prefix if and only if the
adapter is read-only or the operation does not act on the logical root. -/
theorem changesOnlyBeneath_iff (hashes : Hashes) (config : Config)
    (hpref : config.prefixPath ≠ .root) (op : Op) :
    ChangesOnlyBeneath hashes config op ↔ config.readOnly ∨ ¬ActsOnRoot op := by
  constructor
  · intro h
    by_contra hcon
    rw [not_or, not_not] at hcon
    let env : Env := ⟨fun _ ↦ none, 0, (KeyOrder.increasing Str).toIterOrder,
      (KeyOrder.increasing Str).toIterOrder⟩
    obtain ⟨result, events, client', hperform, hlt⟩ :=
      tally_actsOnRoot hashes hpref hcon.1 hcon.2 env { store := fun _ ↦ 0 }
    have hsame := h _ _ tally _ tally_frames _ client' env result events (by simp [OpenedThrough])
      hperform _ (not_beneath_self _)
    exact absurd hsame hlt.ne'
  · intro hop σ ω b view hb client client' env result events hopened hperform name hname
    exact perform_beneath hpref hop hb hopened hperform hname

def tenant : Config where
  prefixPath := ⟨.lit "tenant", .inr (by decide)⟩

theorem tenant_changesOnlyBeneath :
    ChangesOnlyBeneath ⟨id, id, fun _ ↦ 0⟩ tenant (.delete ⟨.lit "a", .inr (by decide)⟩) ∧
      ¬ChangesOnlyBeneath ⟨id, id, fun _ ↦ 0⟩ tenant (.delete .root) := by
  constructor
  · exact (changesOnlyBeneath_iff _ tenant (by decide) _).mpr
      (.inr fun hroot ↦ absurd (congrArg Path.value hroot) (by decide))
  · rw [changesOnlyBeneath_iff _ tenant (by decide)]
    simp [tenant, ActsOnRoot]

/-- Deleting the logical root over the in-memory adapter deletes the object
stored at the prefix. -/
theorem tenant_delete_root :
    ∃ result events client',
      Client.perform (decorate ⟨id, id, fun _ ↦ 0⟩ tenant (Memory.backend ⟨id, id, fun _ ↦ 0⟩))
        (.delete .root)
        ⟨fun _ ↦ none, 0, (KeyOrder.increasing Str).toIterOrder,
          (KeyOrder.increasing Str).toIterOrder⟩
        { store := Memory.new.insert (.lit "tenant") ⟨.lit "x", none, [], .visibilityPrivate, 0⟩ } =
          some (result, events, client') ∧
      ¬Beneath tenant.prefixPath (.lit "tenant") ∧ client'.store.lookup (.lit "tenant") = none :=
  ⟨.done none, [], { store := Memory.new }, rfl, not_beneath_self tenant.prefixPath, rfl⟩

end GoFilesystem.Decorator
