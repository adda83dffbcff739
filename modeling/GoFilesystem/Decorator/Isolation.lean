import GoFilesystem.Decorator.Confinement
import GoFilesystem.Memory.Keys
import GoFilesystem.Memory.Locality

/-!
# Tenants over one in-memory adapter

Two decorators over one in-memory adapter whose prefixes do not lie within each
other serve two tenants that cannot observe each other.  The argument has two
halves.  What a tenant sees depends only on the region of its prefix
(`decorate_local`, from the locality of the in-memory adapter), and what the
other tenant does leaves that region alone (`decorate_obeys`, with the frame of
the other region).  The two regions are disjoint: this is where it matters that
names are compared by segments, so that `tenant` and `tenant-2` are apart.
-/

namespace GoFilesystem.Decorator

open Go Method

variable {σ α : Type} {order : KeyOrder Str} {R : σ → σ → Prop} {config : Config}

/-! ## Locality through a decorator -/

section Lift

variable {V : α → α → Prop} {W : α × Option Err → α × Option Err → Prop}
  {call : Method σ (α × Option Err)}

theorem observeCall_alike {operation : Operation} {path destination : Path} {errOf : α → Option Err}
    {call call' : Method σ α} (herr : ∀ r r', V r r' → errOf r = errOf r')
    (h : Alike order R V call call') :
    Alike order R V (observeCall config operation path destination errOf call)
      (observeCall config operation path destination errOf call') := by
  refine h.bind fun r r' hr ↦ ?_
  rw [herr r r' hr]
  split
  · exact (alike_emit _).bind fun _ _ _ ↦ .pure hr
  · exact .pure hr

theorem retryFrom_alike (policy : RetryPolicy) (zero : α) (hzero : ∀ err, W (zero, err) (zero, err))
    (herr : ∀ r r', W r r' → r.2 = r'.2) (h : Alike order R W call call) (remaining : Nat) :
    Alike order R W (retryFrom policy zero call remaining)
      (retryFrom policy zero call remaining) := by
  induction remaining with
  | zero =>
      refine alike_ctxErr.bind ?_
      rintro err _ rfl
      cases err with
      | some err => exact .pure (hzero _)
      | none => exact h
  | succ remaining ih =>
      refine alike_ctxErr.bind ?_
      rintro err _ rfl
      cases err with
      | some err => exact .pure (hzero _)
      | none =>
          refine h.bind fun r r' hr ↦ ?_
          obtain ⟨result, err⟩ := r
          obtain ⟨result', err'⟩ := r'
          obtain rfl : err = err' := herr _ _ hr
          cases err with
          | none => exact .pure hr
          | some err =>
              dsimp only
              split
              · exact .pure hr
              · cases policy.backoff with
                | none => exact ih
                | some delay =>
                    refine alike_ctxErr.bind ?_
                    rintro err _ rfl
                    cases err with
                    | some err => exact .pure (hzero _)
                    | none => exact ih

theorem retryCall_alike {zero : α} (hzero : ∀ err, W (zero, err) (zero, err))
    (herr : ∀ r r', W r r' → r.2 = r'.2) (h : Alike order R W call call) :
    Alike order R W (retryCall config zero call) (retryCall config zero call) := by
  unfold retryCall
  cases config.retry with
  | none => exact h
  | some policy => exact retryFrom_alike policy zero hzero herr h _

/-- `retryCall` for values that are the same in both runs. -/
theorem retryCall_alike_eq {zero : α} (h : Alike order R Eq call call) :
    Alike order R Eq (retryCall config zero call) (retryCall config zero call) :=
  retryCall_alike (fun _ ↦ rfl) (fun _ _ hr ↦ congrArg Prod.snd hr) h

theorem guarded_alike {capability : Capability} {operation : Operation} {reject : Err → α}
    {call : Method σ α} (hreject : ∀ err, V (reject err) (reject err))
    (h : Alike order R V call call) :
    Alike order R V (guarded config capability operation reject call)
      (guarded config capability operation reject call) := by
  unfold guarded
  split
  · exact .pure (hreject _)
  · exact h

theorem internal_alike {path : Path} {f : Path → Method σ α}
    (h : Alike order R V (f (internalPath config.prefixPath path))
      (f (internalPath config.prefixPath path))) :
    Alike order R V (internal config path >>= f) (internal config path >>= f) := by
  rwa [internal_bind]

end Lift

theorem streamChecksum_alike (hashes : Hashes) (config : Config) {b : Backend σ} {path : Path}
    (h : Alike order R Eq (b.openPath (internalPath config.prefixPath path))
      (b.openPath (internalPath config.prefixPath path)))
    (algorithm : ChecksumAlgorithm) :
    Alike order R Eq (streamChecksum hashes config b path algorithm)
      (streamChecksum hashes config b path algorithm) := by
  unfold streamChecksum
  cases digest hashes algorithm with
  | none => exact .pure rfl
  | some sum =>
      refine internal_alike (h.bind ?_)
      rintro ⟨stream, err⟩ _ rfl
      cases err with
      | some err => exact .pure rfl
      | none =>
          dsimp only
          split
          · exact .pure rfl
          · split <;> exact .pure rfl

theorem externalEntries_timeless (prefixPath : Path) (inner : Option Err) (entries : List Entry) :
    (externalEntries prefixPath inner entries).timeless =
      externalEntries prefixPath inner (entries.map Entry.timeless) := by
  induction entries with
  | nil => rfl
  | cons entry entries ih =>
      have hpath : entry.timeless.path = entry.path := rfl
      rw [List.map_cons, externalEntries, externalEntries, ← ih, hpath]
      cases externalPath prefixPath entry.path with
      | error err => rfl
      | ok path => rfl

/-- A decorated adapter is as local as its backend. -/
theorem decorate_local (hashes : Hashes) (config : Config) {A : Path → Prop} {b : Backend σ}
    (h : b.Local order R A) (hA : ∀ path, A (internalPath config.prefixPath path)) :
    (decorate hashes config b).Local order R fun _ ↦ True where
  openPath _ _ := observeCall_alike (fun _ _ hr ↦ congrArg Prod.snd hr) <| retryCall_alike_eq <|
    internal_alike (h.openPath _ (hA _))
  openRange _ byteRange _ := observeCall_alike (fun _ _ hr ↦ congrArg Prod.snd hr) <|
    retryCall_alike_eq <| internal_alike (h.openRange _ byteRange (hA _))
  write path source options _ := by
    refine observeCall_alike (fun _ _ hr ↦ hr.2) <| guarded_alike (fun _ ↦ ⟨rfl, rfl⟩) ?_
    split
    · exact .pure ⟨rfl, rfl⟩
    · refine internal_alike <| (h.write _ source options (hA _)).bind fun r r' hr ↦ ?_
      exact .pure ⟨congrArg (fun metadata : Metadata ↦ { metadata with path }) hr.1, hr.2⟩
  openWriter path options _ := by
    refine observeCall_alike ?_ <| guarded_alike (fun _ ↦ .error _) ?_
    · rintro _ _ (_ | _) <;> rfl
    · split
      · exact .pure (.error _)
      · exact internal_alike (h.openWriter _ options (hA _))
  delete _ _ := observeCall_alike (fun _ _ hr ↦ hr) <| guarded_alike (fun _ ↦ rfl) <|
    internal_alike (h.delete _ (hA _))
  list _ options _ := by
    refine observeCall_alike (fun _ _ hr ↦ hr.2) ?_
    refine (retryCall_alike (fun _ ↦ ⟨rfl, rfl⟩) (fun _ _ hr ↦ hr.2) <|
      internal_alike (h.list _ options (hA _))).bind fun r r' hr ↦ ?_
    obtain ⟨inner, err⟩ := r
    obtain ⟨inner', err'⟩ := r'
    obtain ⟨hinner, rfl : err = err'⟩ := hr
    cases err with
    | some err => exact .pure ⟨rfl, rfl⟩
    | none =>
        refine .pure ⟨?_, rfl⟩
        obtain ⟨hentries, herr⟩ := Listing.mk.inj hinner
        dsimp only
        rw [externalEntries_timeless, externalEntries_timeless, hentries, herr]
  stat path _ := by
    refine observeCall_alike (fun _ _ hr ↦ hr.2) ?_
    refine (retryCall_alike (fun _ ↦ ⟨rfl, rfl⟩) (fun _ _ hr ↦ hr.2) <|
      internal_alike (h.stat _ (hA _))).bind fun r r' hr ↦ ?_
    exact .pure ⟨congrArg (fun metadata : Metadata ↦ { metadata with path }) hr.1, hr.2⟩
  copy _ _ options _ _ := observeCall_alike (fun _ _ hr ↦ hr) <| guarded_alike (fun _ ↦ rfl) <|
    internal_alike <| internal_alike (h.copy _ _ options (hA _) (hA _))
  move _ _ options _ _ := observeCall_alike (fun _ _ hr ↦ hr) <| guarded_alike (fun _ ↦ rfl) <|
    internal_alike <| internal_alike (h.move _ _ options (hA _) (hA _))
  setMetadata _ metadata _ := observeCall_alike (fun _ _ hr ↦ hr) <| guarded_alike (fun _ ↦ rfl) <|
    internal_alike (h.setMetadata _ metadata (hA _))
  checksum _ algorithm _ := by
    refine observeCall_alike (fun _ _ hr ↦ congrArg Prod.snd hr) <| retryCall_alike_eq ?_
    split
    · exact streamChecksum_alike hashes config (h.openPath _ (hA _)) algorithm
    · exact internal_alike (h.checksum _ algorithm (hA _))
  visibility _ _ := observeCall_alike (fun _ _ hr ↦ congrArg Prod.snd hr) <|
    guarded_alike (fun _ ↦ rfl) <| retryCall_alike_eq <| internal_alike (h.visibility _ (hA _))
  setVisibility _ visibility _ := observeCall_alike (fun _ _ hr ↦ hr) <|
    guarded_alike (fun _ ↦ rfl) <| internal_alike (h.setVisibility _ visibility (hA _))
  temporaryURL sign hsign path lifetime options _ := by
    obtain rfl := Option.mem_some_iff.mp hsign
    refine observeCall_alike (fun _ _ hr ↦ congrArg Prod.snd hr) ?_
    cases hb : b.temporaryURL with
    | none => exact .pure rfl
    | some sign =>
        exact retryCall_alike_eq <| internal_alike
          (h.temporaryURL sign hb _ lifetime options (hA _))

/-! ## The region of a prefix -/

/-- The names at a prefix or with the prefix and a slash before them. -/
def region (prefixPath : Path) : Set Str :=
  {name | name = prefixPath.value ∨ ∃ rest, name = prefixPath.value ++ slash :: rest}

theorem mem_region_of_atOrBeneath {prefixPath : Path} {name : Str}
    (h : AtOrBeneath prefixPath name) : name ∈ region prefixPath :=
  h.imp_right fun ⟨relative, _, heq⟩ ↦ ⟨relative, heq⟩

theorem isRegion_region {prefixPath : Path} (h : prefixPath ≠ .root) :
    Memory.IsRegion (region prefixPath) where
  ne_nil := by
    rintro name (rfl | ⟨rest, rfl⟩)
    · exact (Path.normalForm h).ne_nil
    · simp
  closed := by
    rintro name (rfl | ⟨rest, rfl⟩) more
    · exact .inr ⟨more, rfl⟩
    · exact .inr ⟨rest ++ slash :: more, by simp⟩

/-- Prefixes that do not lie within each other have disjoint regions. -/
theorem disjoint_region {p q : Path} (hp : p ≠ .root) (hq : q ≠ .root)
    (hpq : ¬AtOrBeneath p q.value) (hqp : ¬AtOrBeneath q p.value) {name : Str}
    (hname : name ∈ region p) : name ∉ region q := by
  have hbeneath : ∀ {p q : Path}, q ≠ .root → ∀ rest, q.value = p.value ++ slash :: rest →
      AtOrBeneath p q.value := by
    intro p q hq rest heq
    exact .inr ⟨rest, NormalForm.right_ne_nil (heq ▸ Path.normalForm hq), heq⟩
  intro hname'
  rcases hname with rfl | ⟨rest, rfl⟩
  · rcases hname' with heq | ⟨rest, heq⟩
    · exact hqp (.inl heq)
    · exact hqp (hbeneath hp rest heq)
  · rcases hname' with heq | ⟨rest', heq⟩
    · exact hpq (hbeneath hq rest heq.symm)
    · rcases List.append_eq_append_iff.mp heq with ⟨more, hmore, htail⟩ | ⟨more, hmore, htail⟩
      · cases more with
        | nil => exact hpq (.inl (by simpa using hmore))
        | cons c more =>
            obtain ⟨rfl, -⟩ := List.cons.inj htail
            exact hpq (hbeneath hq more hmore)
      · cases more with
        | nil => exact hqp (.inl (by simpa using hmore))
        | cons c more =>
            obtain ⟨rfl, -⟩ := List.cons.inj htail
            exact hqp (hbeneath hp more hmore)

/-! ## Two tenants -/

inductive Tenant where
  | p
  | q
deriving DecidableEq

/-- The state that two clients share, and the writers of each. -/
structure Shared (σ : Type) where
  store : σ
  writersP : List (OpenWriter σ) := []
  writersQ : List (OpenWriter σ) := []

abbrev Step := Tenant × Op × Env

/-- What one operation shows to its caller and its observer. -/
abbrev Seen := Result × List Event

def Shared.perform (bp bq : Backend σ) (shared : Shared σ) :
    Step → Option (Seen × Shared σ)
  | (.p, op, env) =>
    (Client.perform bp op env ⟨shared.store, shared.writersP⟩).map fun (result, events, client) ↦
      ((result, events), { shared with store := client.store, writersP := client.writers })
  | (.q, op, env) =>
    (Client.perform bq op env ⟨shared.store, shared.writersQ⟩).map fun (result, events, client) ↦
      ((result, events), { shared with store := client.store, writersQ := client.writers })

/-- A sequence of operations of both tenants, and what each shows; `none` is a
panic. -/
def observe (bp bq : Backend σ) : List Step → Shared σ → Option (List (Tenant × Seen))
  | [], _ => some []
  | step :: steps, shared =>
    (shared.perform bp bq step).bind fun (seen, shared) ↦
      (observe bp bq steps shared).map ((step.1, seen) :: ·)

theorem observe_cons {bp bq : Backend σ} {shared next : Shared σ} {step : Step} {seen : Seen}
    (h : shared.perform bp bq step = some (seen, next)) (steps : List Step) :
    observe bp bq (step :: steps) shared =
      (observe bp bq steps next).map ((step.1, seen) :: ·) := by
  rw [observe, h]
  rfl

/-- What one tenant sees, without modification times. -/
def seenBy (tenant : Tenant) (seen : List (Tenant × Seen)) : List Seen :=
  (seen.filter (·.1 = tenant)).map fun s ↦ (s.2.1.timeless, s.2.2)

/-- The same operation of the same tenant, perhaps at another time. -/
structure SameStep (order : KeyOrder Str) (step step' : Step) : Prop where
  tenant : step.1 = step'.1
  op : step.2.1 = step'.2.1
  env : SameButClock order step.2.2 step'.2.2

/-- The discipline of one tenant's calls: keys stay valid, and nothing changes
outside the region of the prefix. -/
def ownRegion (prefixPath : Path) : Call.Discipline Memory.Objects :=
  (Call.Discipline.keeping Memory.KeysValid).inf (.outside Memory.stored (region prefixPath))

theorem decorate_ownRegion (hashes : Hashes) (h : config.prefixPath ≠ .root) :
    (decorate hashes config (Memory.backend hashes)).Obeys (ownRegion config.prefixPath)
      (through config (.within (region config.prefixPath))) := by
  refine decorate_obeys hashes config (Memory.backend_obeys (.inf ?_ ?_) hashes)
  · refine Memory.keysValid_admits fun path hpath hroot ↦ ?_
    exact (isRegion_region h).ne_nil _ hpath (congrArg Path.value hroot)
  · exact Memory.outside_admits _

/-- Every operation of a tenant stays within its region. -/
theorem allowed_region (h : config.prefixPath ≠ .root) (op : Op) :
    op.Allowed (through config (.within (region config.prefixPath))) := by
  have hpath : ∀ path, (internalPath config.prefixPath path).value ∈ region config.prefixPath :=
    fun path ↦ mem_region_of_atOrBeneath (atOrBeneath_internalPath h path)
  cases op with
  | write path source options => exact .inr (.inr (hpath path))
  | openWriter path options => exact .inr (.inr (hpath path))
  | delete path => exact .inr (hpath path)
  | copy source destination options => exact ⟨trivial, .inr (hpath destination)⟩
  | move source destination options => exact ⟨.inr (hpath source), .inr (hpath destination)⟩
  | setMetadata path metadata => exact .inr (hpath path)
  | setVisibility path visibility => exact .inr (hpath path)
  | _ => trivial

/-- An operation of a tenant returns, keeps the keys valid and stays within the
region. -/
theorem perform_ownRegion (hashes : Hashes) (h : config.prefixPath ≠ .root) (op : Op) (env : Env)
    (client : Client Memory.Objects) (hkeys : Memory.KeysValid client.store)
    (hw : WritersObey (ownRegion config.prefixPath) client.writers) :
    ∃ result events client',
      Client.perform (decorate hashes config (Memory.backend hashes)) op env client =
        some (result, events, client') ∧
      Memory.KeysValid client'.store ∧
      (∀ name ∉ region config.prefixPath,
        client'.store.lookup name = client.store.lookup name) ∧
      WritersObey (ownRegion config.prefixPath) client'.writers := by
  obtain ⟨r, frame, hret, hallows, hw'⟩ :=
    (call_obeys (decorate_ownRegion hashes h) hw (allowed_region h op)).returns (·.1) env
      (s := { store := client.store }) ⟨hkeys, trivial⟩
  exact ⟨r.1, frame.events, ⟨frame.store, r.2⟩, by rw [Client.perform, hret]; rfl,
    hallows.1.1, hallows.2.2, hw'⟩

/-- The first tenant's part of two states is the same up to modification times,
and both tenants keep to their regions in the first one. -/
structure Indistinct (order : KeyOrder Str) (p q : Path) (shared shared' : Shared Memory.Objects) :
    Prop where
  agree : Memory.AgreeOn (region p) shared.store shared'.store
  writers : WritersAlike order (Memory.AgreeOn (region p)) shared.writersP shared'.writersP
  keys : Memory.KeysValid shared.store
  writersP : WritersObey (ownRegion p) shared.writersP
  writersQ : WritersObey (ownRegion q) shared.writersQ

section Steps

variable (hashes : Hashes) {p q : Config} {shared shared' : Shared Memory.Objects}

/-- An operation of the second tenant. -/
theorem Indistinct.perform_q (bp : Backend Memory.Objects) (hp : p.prefixPath ≠ .root)
    (hq : q.prefixPath ≠ .root) (hpq : ¬AtOrBeneath p.prefixPath q.prefixPath.value)
    (hqp : ¬AtOrBeneath q.prefixPath p.prefixPath.value)
    (h : Indistinct order p.prefixPath q.prefixPath shared shared') (op : Op) (env : Env) :
    ∃ seen next, shared.perform bp (decorate hashes q (Memory.backend hashes)) (.q, op, env) =
        some (seen, next) ∧
      Indistinct order p.prefixPath q.prefixPath next shared' := by
  obtain ⟨result, events, client, hperform, hkeys, hframe, hw⟩ := perform_ownRegion hashes hq op env
    ⟨shared.store, shared.writersQ⟩ h.keys h.writersQ
  refine ⟨(result, events), { shared with store := client.store, writersQ := client.writers },
    by rw [Shared.perform, hperform]; rfl, ?_, h.writers, hkeys, h.writersP, hw⟩
  intro name hname
  rw [hframe name (disjoint_region hp hq hpq hqp hname)]
  exact h.agree name hname

/-- An operation of the first tenant, in both runs. -/
theorem Indistinct.perform_p (bq : Backend Memory.Objects) (hp : p.prefixPath ≠ .root)
    (h : Indistinct order p.prefixPath q.prefixPath shared shared') (op : Op) {env env' : Env}
    (henv : SameButClock order env env') :
    ∃ seen seen' next next',
      shared.perform (decorate hashes p (Memory.backend hashes)) bq (.p, op, env) =
        some (seen, next) ∧
      shared'.perform (decorate hashes p (Memory.backend hashes)) bq (.p, op, env') =
        some (seen', next') ∧
      seen.1.timeless = seen'.1.timeless ∧ seen.2 = seen'.2 ∧
      Indistinct order p.prefixPath q.prefixPath next next' := by
  obtain ⟨result, events, client, hperform, hkeys, hframe, hw⟩ := perform_ownRegion hashes hp op env
    ⟨shared.store, shared.writersP⟩ h.keys h.writersP
  have hlocal : (decorate hashes p (Memory.backend hashes)).Local order
      (Memory.AgreeOn (region p.prefixPath)) fun _ ↦ True :=
    decorate_local hashes p (Memory.backend_local (isRegion_region hp) hashes) fun path ↦
      mem_region_of_atOrBeneath (atOrBeneath_internalPath hp path)
  obtain ⟨result', client', hperform', hresult, hagree, hwriters⟩ :=
    perform_local hlocal (fun _ ↦ trivial) op henv ⟨shared'.store, shared'.writersP⟩ h.agree
      h.writers hperform
  exact ⟨(result, events), (result', events),
    { shared with store := client.store, writersP := client.writers },
    { shared' with store := client'.store, writersP := client'.writers },
    by rw [Shared.perform, hperform]; rfl, by rw [Shared.perform, hperform']; rfl, hresult, rfl,
    hagree, hwriters, hkeys, hw, h.writersQ⟩

/-- What the first tenant sees, with and without the second one. -/
theorem Indistinct.observe (hp : p.prefixPath ≠ .root) (hq : q.prefixPath ≠ .root)
    (hpq : ¬AtOrBeneath p.prefixPath q.prefixPath.value)
    (hqp : ¬AtOrBeneath q.prefixPath p.prefixPath.value) {steps alone : List Step}
    (halone : List.Forall₂ (SameStep order) (steps.filter (·.1 = .p)) alone)
    (h : Indistinct order p.prefixPath q.prefixPath shared shared') :
    ∃ seen seen',
      observe (decorate hashes p (Memory.backend hashes))
        (decorate hashes q (Memory.backend hashes)) steps shared = some seen ∧
      observe (decorate hashes p (Memory.backend hashes))
        (decorate hashes q (Memory.backend hashes)) alone shared' = some seen' ∧
      seenBy .p seen = seenBy .p seen' := by
  induction steps generalizing alone shared shared' with
  | nil =>
      obtain rfl := List.forall₂_nil_left_iff.mp halone
      exact ⟨[], [], rfl, rfl, rfl⟩
  | cons step steps ih =>
      obtain ⟨tenant, op, env⟩ := step
      cases tenant with
      | q =>
          obtain ⟨first, next, hperform, hnext⟩ :=
            h.perform_q hashes (decorate hashes p (Memory.backend hashes)) hp hq hpq hqp op env
          obtain ⟨seen, seen', hseen, hseen', heq⟩ := ih halone hnext
          refine ⟨(.q, first) :: seen, seen', ?_, hseen', heq⟩
          rw [observe_cons hperform, hseen]
          rfl
      | p =>
          obtain ⟨step', rest, hstep, hrest, rfl⟩ := List.forall₂_cons_left_iff.mp halone
          obtain ⟨tenant', op', env'⟩ := step'
          obtain ⟨rfl, rfl, henv⟩ := hstep
          obtain ⟨first, first', next, next', hperform, hperform', hresult, hevents, hnext⟩ :=
            h.perform_p hashes (decorate hashes q (Memory.backend hashes)) hp op henv
          obtain ⟨seen, seen', hseen, hseen', heq⟩ := ih hrest hnext
          refine ⟨(.p, first) :: seen, (.p, first') :: seen', ?_, ?_, ?_⟩
          · rw [observe_cons hperform, hseen]
            rfl
          · rw [observe_cons hperform', hseen']
            rfl
          · change (first.1.timeless, first.2) :: seenBy .p seen =
              (first'.1.timeless, first'.2) :: seenBy .p seen'
            rw [hresult, hevents, heq]

end Steps

/-- **Tenant isolation.**  Let two decorators over one in-memory adapter with
valid keys have prefixes other than the root that do not lie within each other.
Take any sequence of operations of both tenants, and the sequence that remains
when the operations of the second are deleted, at any other times.  Both run to
their end, and the first tenant sees the same in both, up to modification
times. -/
theorem tenant_isolation (hashes : Hashes) (p q : Config) (hp : p.prefixPath ≠ .root)
    (hq : q.prefixPath ≠ .root) (hpq : ¬AtOrBeneath p.prefixPath q.prefixPath.value)
    (hqp : ¬AtOrBeneath q.prefixPath p.prefixPath.value) (objects : Memory.Objects)
    (hkeys : Memory.KeysValid objects) (order : KeyOrder Str) (steps alone : List Step)
    (halone : List.Forall₂ (SameStep order) (steps.filter (·.1 = .p)) alone) :
    ∃ seen seen',
      observe (decorate hashes p (Memory.backend hashes))
        (decorate hashes q (Memory.backend hashes)) steps { store := objects } = some seen ∧
      observe (decorate hashes p (Memory.backend hashes))
        (decorate hashes q (Memory.backend hashes)) alone { store := objects } = some seen' ∧
      seenBy .p seen = seenBy .p seen' :=
  Indistinct.observe hashes hp hq hpq hqp halone
    ⟨fun _ _ ↦ rfl, .nil, hkeys, writersObey_nil, writersObey_nil⟩

/-- A second tenant whose prefix has the first one's as a string prefix. -/
def tenantTwo : Config where
  prefixPath := ⟨.lit "tenant-2", .inr (by decide)⟩

def liveAt (now : Time) : Env :=
  ⟨fun _ ↦ none, now, (KeyOrder.increasing Str).toIterOrder, (KeyOrder.increasing Str).toIterOrder⟩

/-- Both tenants write under the same logical path, the second one also deletes
its logical root, and the first one lists. -/
def tenantSteps : List Step :=
  let a : Path := .a
  [(.p, .write a { last := .lit "x" } {}, liveAt 1),
   (.q, .write a { last := .lit "y" } {}, liveAt 2),
    (.q, .delete .root, liveAt 3), (.p, .list .root {}, liveAt 4)]

/-- What remains without the second tenant, at other times. -/
def tenantStepsAlone : List Step :=
  let a : Path := .a
  [(.p, .write a { last := .lit "x" } {}, liveAt 5), (.p, .list .root {}, liveAt 6)]

theorem tenantSteps_isolated :
    ∃ seen seen',
      observe (decorate ⟨id, id, fun _ ↦ 0⟩ tenant (Memory.backend ⟨id, id, fun _ ↦ 0⟩))
        (decorate ⟨id, id, fun _ ↦ 0⟩ tenantTwo (Memory.backend ⟨id, id, fun _ ↦ 0⟩))
        tenantSteps { store := Memory.new } = some seen ∧
      observe (decorate ⟨id, id, fun _ ↦ 0⟩ tenant (Memory.backend ⟨id, id, fun _ ↦ 0⟩))
        (decorate ⟨id, id, fun _ ↦ 0⟩ tenantTwo (Memory.backend ⟨id, id, fun _ ↦ 0⟩))
        tenantStepsAlone { store := Memory.new } = some seen' ∧
      seenBy .p seen = seenBy .p seen' := by
  refine tenant_isolation _ tenant tenantTwo (by decide) (by decide) ?_ ?_ _ Memory.keysValid_new
    (KeyOrder.increasing Str) _ _ ?_
  · rintro (heq | ⟨rest, -, heq⟩)
    · exact absurd heq (by decide)
    · have hbyte : some (45 : UInt8) = some 47 := congrArg (·[6]?) heq
      exact absurd hbyte (by decide)
  · rintro (heq | ⟨rest, -, heq⟩)
    · exact absurd heq (by decide)
    · have hbyte : none = some (45 : UInt8) := congrArg (·[6]?) heq
      exact absurd hbyte (by decide)
  · exact .cons ⟨rfl, rfl, rfl, rfl, rfl, rfl⟩ (.cons ⟨rfl, rfl, rfl, rfl, rfl, rfl⟩ .nil)

end GoFilesystem.Decorator
