import GoFilesystem.Agreement
import GoFilesystem.Decorator.Confinement
import GoFilesystem.Memory.Keys

/-!
# Stacked decorators

A decorated backend is a backend, so decorators stack.  Two results about whole
stacks: prefixes compose (`prefixes_compose`), since mapping a path inwards
through two prefixes is mapping it through their join, and the mapping outwards
is its inverse; and one read-only layer anywhere makes the whole stack
read-only (`readOnly_airtight`), since a layer above it only adds rejections
and a layer below it is never asked.
-/

namespace GoFilesystem.Decorator

open Go Method

variable {σ α : Type} {configs : List Config} {b : Backend σ} {config : Config}
  {prefixes : List Path}

/-- A stack of decorators, the outermost first. -/
def layers (hashes : Hashes) (configs : List Config) (b : Backend σ) : Backend σ :=
  configs.foldr (decorate hashes) b

/-! ## Prefixes -/

/-- What a decorator does that has a prefix and no other option. -/
def prefixed (prefixPath : Path) (b : Backend σ) : Backend σ where
  capabilities := newCapabilitySet b.capabilities
  openPath path := b.openPath (internalPath prefixPath path)
  openRange path byteRange := b.openRange (internalPath prefixPath path) byteRange
  write path source options :=
    if path.isRoot then return ({}, some objectPathIsRoot)
    else do
      let (metadata, err) ← b.write (internalPath prefixPath path) source options
      return ({ metadata with path }, err)
  openWriter path options :=
    if path.isRoot then return .error objectPathIsRoot
    else b.openWriter (internalPath prefixPath path) options
  delete path := b.delete (internalPath prefixPath path)
  list path options := do
    match ← b.list (internalPath prefixPath path) options with
    | (_, some err) => return ({}, some err)
    | (inner, none) => return (externalEntries prefixPath inner.err inner.entries, none)
  stat path := do
    let (metadata, err) ← b.stat (internalPath prefixPath path)
    return ({ metadata with path }, err)
  copy source destination options :=
    b.copy (internalPath prefixPath source) (internalPath prefixPath destination) options
  move source destination options :=
    b.move (internalPath prefixPath source) (internalPath prefixPath destination) options
  setMetadata path metadata := b.setMetadata (internalPath prefixPath path) metadata
  checksum path algorithm := b.checksum (internalPath prefixPath path) algorithm
  visibility path := b.visibility (internalPath prefixPath path)
  setVisibility path visibility := b.setVisibility (internalPath prefixPath path) visibility
  temporaryURL := some fun path lifetime options ↦
    match b.temporaryURL with
    | none => return ([], some (GoFilesystem.unsupported "decorator" .temporaryURL .temporaryURL))
    | some sign => sign (internalPath prefixPath path) lifetime options

theorem observeCall_of_not_observed (h : config.observed = false) (operation : Operation)
    (path destination : Path) (errOf : α → Option Err) (call : Method σ α) :
    observeCall config operation path destination errOf call = call := by
  unfold observeCall
  simp [h]

/-- Without other options, a decorator only maps paths. -/
theorem decorate_eq_prefixed (hashes : Hashes) (prefixPath : Path) (b : Backend σ) :
    decorate hashes { prefixPath } b = prefixed prefixPath b := by
  unfold decorate
  simp only [observeCall_of_not_observed, retryCall, guarded, internal_bind, capabilities,
    Bool.false_eq_true, if_false]
  rfl

/-- Mapping inwards through two prefixes is mapping through their join. -/
theorem internalPath_internalPath (inner outer path : Path) :
    internalPath inner (internalPath outer path) =
      internalPath (internalPath inner outer) path := by
  by_cases hinner : inner = .root
  · simp [internalPath, hinner]
  by_cases houter : outer = .root
  · rw [houter, internalPath_root hinner]
    simp [internalPath]
  by_cases hpath : path = .root
  · rw [hpath, internalPath_root houter, internalPath_root (internalPath_ne_root (.inl hinner))]
  · apply Path.ext
    rw [internalPath_value hinner (internalPath_ne_root (.inl houter)),
      internalPath_value houter hpath,
      internalPath_value (internalPath_ne_root (.inl hinner)) hpath,
      internalPath_value hinner houter]
    simp

/-- The same entries up to the end of both iterators, whose errors are of the
same class; the same error of the call. -/
def ListsSame (r r' : Listing × Option Err) : Prop := r.1.Same r'.1 ∧ r.2 = r'.2

theorem sameClass_of_externalPath {p p' q q' : Path} {err err' : Err}
    (h : externalPath p q = .error err) (h' : externalPath p' q' = .error err') :
    err.SameClass err' := by
  intro target
  rw [is_of_externalPath h, is_of_externalPath h']

theorem externalEntries_congr (prefixPath : Path) {inner inner' : Option Err}
    (h : SameError inner inner') (entries : List Entry) :
    (externalEntries prefixPath inner entries).Same
      (externalEntries prefixPath inner' entries) := by
  induction entries with
  | nil => exact ⟨rfl, h⟩
  | cons entry entries ih =>
      unfold externalEntries
      cases externalPath prefixPath entry.path with
      | error err => exact ⟨rfl, .refl _⟩
      | ok path => exact ⟨congrArg ({ entry with path } :: ·) ih.entries, ih.err⟩

/-- The entry at which one of two iterators stops is the entry at which the
iterator of their join stops. -/
theorem externalEntries_externalEntries (inner outer : Path) (err : Option Err)
    (entries : List Entry) :
    (externalEntries outer (externalEntries inner err entries).err
      (externalEntries inner err entries).entries).Same
      (externalEntries (internalPath inner outer) err entries) := by
  induction entries with
  | nil => exact ⟨rfl, .refl _⟩
  | cons entry entries ih =>
      -- an entry that the join accepts is accepted by both, with the same path
      have hjoin : ∀ path, externalPath (internalPath inner outer) entry.path = .ok path ↔
          ∃ middle, externalPath inner entry.path = .ok middle ∧
            externalPath outer middle = .ok path := by
        intro path
        simp only [externalPath_eq_ok_iff]
        rw [← internalPath_internalPath]
        constructor
        · exact fun h ↦ ⟨_, h, rfl⟩
        · rintro ⟨_, h, rfl⟩
          exact h
      cases hboth : externalPath (internalPath inner outer) entry.path with
      | ok path =>
          obtain ⟨middle, hinner, houter⟩ := (hjoin path).mp hboth
          simp only [externalEntries, hinner, houter, hboth]
          exact ⟨congrArg ({ entry with path } :: ·) ih.entries, ih.err⟩
      | error failure =>
          cases hinner : externalPath inner entry.path with
          | error innerFailure =>
              simp only [externalEntries, hinner, hboth]
              exact ⟨rfl, .some (sameClass_of_externalPath hinner hboth)⟩
          | ok middle =>
              cases houter : externalPath outer middle with
              | error outerFailure =>
                  simp only [externalEntries, hinner, houter, hboth]
                  exact ⟨rfl, .some (sameClass_of_externalPath houter hboth)⟩
              | ok path =>
                  rw [(hjoin path).mpr ⟨middle, hinner, houter⟩] at hboth
                  contradiction

/-- Two backends that differ at most in the errors their iterators end with. -/
structure SameButIterators (b b' : Backend σ) : Prop where
  others : b' = { b with list := b'.list }
  list : ∀ path options, Call.Related Eq Eq ListsSame (b.list path options) (b'.list path options)

theorem newCapabilitySet_of_nodup {kept capabilities : List Capability}
    (h : (kept ++ capabilities).Nodup) :
    capabilities.foldl (fun values c ↦ if c ∈ values then values else values ++ [c]) kept =
      kept ++ capabilities := by
  induction capabilities generalizing kept with
  | nil => simp
  | cons c capabilities ih =>
      have hc : c ∉ kept := fun hmem ↦
        (List.nodup_append.mp h).2.2 c hmem c List.mem_cons_self rfl
      rw [List.foldl_cons, if_neg hc, ih (by simpa using h)]
      simp

theorem nodup_newCapabilitySet (capabilities : List Capability) :
    (newCapabilitySet capabilities).Nodup := by
  refine List.foldlRecOn capabilities _ List.nodup_nil fun values h c _ ↦ ?_
  split
  · exact h
  · rename_i hc
    exact List.nodup_append.mpr ⟨h, List.nodup_singleton c, by simpa using fun x hx ↦
      (ne_of_mem_of_not_mem hx hc)⟩

theorem newCapabilitySet_newCapabilitySet (capabilities : List Capability) :
    newCapabilitySet (newCapabilitySet capabilities) = newCapabilitySet capabilities :=
  newCapabilitySet_of_nodup (nodup_newCapabilitySet capabilities)

theorem SameButIterators.refl (b : Backend σ) : SameButIterators b b := by
  refine ⟨rfl, fun path options env env' frame frame' henv hframe ↦ ?_⟩
  subst henv hframe
  cases b.list path options env frame with
  | none => trivial
  | some r => exact ⟨⟨⟨rfl, .refl _⟩, rfl⟩, rfl⟩

/-- One more prefix outside. -/
theorem SameButIterators.prefixed {b b' : Backend σ} (h : SameButIterators b b') (p : Path) :
    SameButIterators (prefixed p b) (prefixed p b') where
  others := by
    rw [h.others]
    rfl
  list path options := by
    refine (h.list (internalPath p path) options).bind ?_
    rintro ⟨listing, err⟩ ⟨listing', _⟩ ⟨⟨hentries, herr⟩, rfl⟩
    cases err with
    | some err => exact .pure ⟨⟨rfl, .refl _⟩, rfl⟩
    | none =>
        refine .pure ⟨?_, rfl⟩
        dsimp only at hentries herr ⊢
        rw [hentries]
        exact externalEntries_congr p herr _

theorem SameButIterators.trans {b b' b'' : Backend σ} (h : SameButIterators b b')
    (h' : SameButIterators b' b'') : SameButIterators b b'' where
  others := by
    rw [h'.others, h.others]
  list path options := by
    rintro env _ frame _ rfl rfl
    have hout := h.list path options env env frame frame rfl rfl
    have hout' := h'.list path options env env frame frame rfl rfl
    cases hb' : b'.list path options env frame with
    | none =>
        cases hb : b.list path options env frame with
        | some r => rw [hb, hb'] at hout; exact hout.elim
        | none => rwa [hb'] at hout'
    | some r' =>
        cases hb : b.list path options env frame with
        | none => rw [hb, hb'] at hout; exact hout.elim
        | some r =>
            cases hb'' : b''.list path options env frame with
            | none => rw [hb', hb''] at hout'; exact hout'.elim
            | some r'' =>
                rw [hb, hb'] at hout
                rw [hb', hb''] at hout'
                obtain ⟨⟨hlisting, herr⟩, hframe⟩ := hout
                obtain ⟨⟨hlisting', herr'⟩, hframe'⟩ := hout'
                exact ⟨⟨hlisting.trans hlisting', herr.trans herr'⟩, hframe.trans hframe'⟩

/-- Two prefixes are one. -/
theorem prefixed_prefixed (inner outer : Path) (b : Backend σ) :
    SameButIterators (prefixed outer (prefixed inner b))
      (prefixed (internalPath inner outer) b) where
  others := by
    -- the inner layer never sees the root
    have hinner : ∀ path : Path, path.isRoot = false →
        (internalPath outer path).isRoot = false := by
      intro path hpath
      rw [Path.isRoot_eq_false_iff] at hpath ⊢
      exact internalPath_ne_root (.inr hpath)
    unfold prefixed
    simp only [internalPath_internalPath, newCapabilitySet_newCapabilitySet, Backend.mk.injEq,
      true_and, and_true]
    refine ⟨?_, ?_, ?_⟩
    · funext path source options
      cases hpath : path.isRoot with
      | true => simp
      | false => simp [hinner path hpath]
    · funext path options
      cases hpath : path.isRoot with
      | true => simp
      | false => simp [hinner path hpath]
    · funext path
      simp
  list path options := by
    rintro env _ frame _ rfl rfl
    simp only [prefixed, internalPath_internalPath, bind_assoc, Call.bind_apply]
    cases b.list (internalPath (internalPath inner outer) path) options env frame with
    | none => trivial
    | some r =>
        obtain ⟨⟨listing, err⟩, frame'⟩ := r
        cases err with
        | some err => exact ⟨⟨.refl _, rfl⟩, rfl⟩
        | none =>
            refine ⟨⟨?_, rfl⟩, rfl⟩
            exact externalEntries_externalEntries inner outer listing.err listing.entries

/-- The prefix of a stack of prefixes, the outermost first. -/
def combined (prefixes : List Path) : Path :=
  prefixes.foldr (fun outer inner ↦ internalPath inner outer) .root

theorem combined_cons (outer : Path) (prefixes : List Path) :
    combined (outer :: prefixes) = internalPath (combined prefixes) outer := rfl

theorem combined_singleton (prefixPath : Path) : combined [prefixPath] = prefixPath := by
  simp [combined, internalPath]

/-- The prefixes of a stack are joined from the innermost to the outermost. -/
theorem combined_value (hne : prefixes ≠ []) (hroot : ∀ prefixPath ∈ prefixes, prefixPath ≠ .root) :
    combined prefixes ≠ .root ∧
      (combined prefixes).value = [slash].intercalate (prefixes.reverse.map Path.value) := by
  induction prefixes with
  | nil => contradiction
  | cons outer prefixes ih =>
      rw [List.forall_mem_cons] at hroot
      cases prefixes with
      | nil =>
          rw [combined_singleton]
          exact ⟨hroot.1, List.intercalate_singleton.symm⟩
      | cons inner prefixes =>
          obtain ⟨hinner, hvalue⟩ := ih (List.cons_ne_nil _ _) hroot.2
          refine ⟨internalPath_ne_root (.inl hinner), ?_⟩
          have hreverse : (outer :: inner :: prefixes).reverse.map Path.value =
              (inner :: prefixes).reverse.map Path.value ++ [outer.value] := by simp
          rw [combined_cons, internalPath_value hinner hroot.1, hvalue, hreverse,
            intercalate_append _ (by simp) (by simp), List.intercalate_singleton]
          simp

/-- A stack of prefixes is one prefix. -/
theorem layers_prefixes (hashes : Hashes) (hne : prefixes ≠ []) (b : Backend σ) :
    SameButIterators (layers hashes (prefixes.map fun prefixPath ↦ { prefixPath }) b)
      (prefixed (combined prefixes) b) := by
  induction prefixes with
  | nil => contradiction
  | cons outer prefixes ih =>
      change SameButIterators (decorate hashes _ (layers hashes _ b)) _
      rw [decorate_eq_prefixed]
      cases prefixes with
      | nil =>
          rw [combined_singleton]
          exact .refl _
      | cons inner prefixes =>
          exact ((ih (List.cons_ne_nil _ _)).prefixed outer).trans (prefixed_prefixed _ _ b)

/-- The same result, or listings of the same entries whose iterators end with
errors of the same class. -/
inductive SameResult : Result → Result → Prop
  | refl (result : Result) : SameResult result result
  | listing {listing listing' : Listing} (h : listing.Same listing') (err : Option Err) :
      SameResult (.listing listing err) (.listing listing' err)

theorem SameButIterators.call {b b' : Backend σ} (h : SameButIterators b b')
    (writers : List (OpenWriter σ)) (op : Op) (env : Env) (frame : Frame σ) :
    Call.RelOutcome (fun r r' ↦ SameResult r.1 r'.1 ∧ r.2 = r'.2) Eq
      (Client.call b writers op env frame) (Client.call b' writers op env frame) := by
  -- only `List` reads the field in which the two differ
  have same : Client.call b' writers op = Client.call b writers op →
      Call.RelOutcome (fun r r' ↦ SameResult r.1 r'.1 ∧ r.2 = r'.2) Eq
        (Client.call b writers op env frame) (Client.call b' writers op env frame) := by
    intro heq
    rw [heq]
    cases Client.call b writers op env frame with
    | none => trivial
    | some r => exact ⟨⟨.refl _, rfl⟩, rfl⟩
  cases op with
  | list directory options =>
      refine (h.list directory options env env frame frame rfl rfl).bind ?_
      rintro ⟨listing, err⟩ ⟨listing', _⟩ frame' _ ⟨hlisting, rfl⟩ rfl
      exact ⟨⟨.listing hlisting err, rfl⟩, rfl⟩
  | _ => exact same (by rw [h.others]; rfl)

/-- **Prefixes compose.**  A stack of decorators with prefixes does to every
backend, from every state of it, what the one decorator with the joined prefix
does: both panic, or both return the same and leave the backend in the same
state.  A backend may keep the calls it receives in its state, so they are the
same calls. -/
theorem prefixes_compose (hashes : Hashes) (hne : prefixes ≠ [])
    (hroot : ∀ prefixPath ∈ prefixes, prefixPath ≠ .root) {joined : Path}
    (hjoined : joined.value = [slash].intercalate (prefixes.reverse.map Path.value))
    (b : Backend σ) :
    (layers hashes (prefixes.map fun prefixPath ↦ { prefixPath }) b).capabilities =
        (decorate hashes { prefixPath := joined } b).capabilities ∧
      ∀ (writers : List (OpenWriter σ)) (op : Op) (env : Env) (frame : Frame σ),
        Call.RelOutcome (fun r r' ↦ SameResult r.1 r'.1 ∧ r.2 = r'.2) Eq
          (Client.call (layers hashes (prefixes.map fun prefixPath ↦ { prefixPath }) b) writers op
            env frame)
          (Client.call (decorate hashes { prefixPath := joined } b) writers op env frame) := by
  obtain rfl : joined = combined prefixes :=
    Path.ext (hjoined.trans (combined_value hne hroot).2.symm)
  rw [decorate_eq_prefixed]
  have h := layers_prefixes hashes hne b
  exact ⟨by rw [h.others], h.call⟩

def user : Path := ⟨.lit "user", .inr (by decide)⟩

theorem tenant_user_delete :
    let env : Env := ⟨fun _ ↦ none, 0, (KeyOrder.increasing Str).toIterOrder,
      (KeyOrder.increasing Str).toIterOrder⟩
    let hashes : Hashes := ⟨id, id, fun _ ↦ 0⟩
    Call.RelOutcome (fun r r' ↦ SameResult r.1 r'.1 ∧ r.2 = r'.2) Eq
      (Client.call (layers hashes [{ prefixPath := user }, tenant] tally) [] (.delete user) env
        { store := fun _ ↦ 0 })
      (Client.call
        (decorate hashes { prefixPath := ⟨.lit "tenant/user", .inr (by decide)⟩ } tally) []
        (.delete user) env { store := fun _ ↦ 0 }) := by
  intro env hashes
  exact (prefixes_compose hashes (List.cons_ne_nil user [tenant.prefixPath]) (by decide)
    (by decide) tally).2 [] (.delete user) env { store := fun _ ↦ 0 }

/-! ## Read-only layers -/

def Rejected (err : Option Err) : Prop :=
  ∃ e, err = some e ∧ (e.is .unsupportedCapability ∨ e.is .invalidPath)

theorem rejected_unsupported (capability : Capability) (operation : Operation) :
    Rejected (some (unsupported capability operation)) := ⟨_, rfl, .inl rfl⟩

theorem rejected_root : Rejected (some objectPathIsRoot) := ⟨_, rfl, .inr rfl⟩

/-- The call returns, with an error. -/
abbrev Answers (call : Method σ α) (errOf : α → Option Err) : Prop :=
  Obeys (.keeping fun _ ↦ True) call fun result ↦ Rejected (errOf result)

/-- Every method that changes something returns with such an error. -/
structure Rejects (b : Backend σ) : Prop where
  write : ∀ path source options, Answers (b.write path source options) Prod.snd
  openWriter : ∀ path options, Answers (b.openWriter path options) errorOf
  delete : ∀ path, Answers (b.delete path) id
  copy : ∀ source destination options, Answers (b.copy source destination options) id
  move : ∀ source destination options, Answers (b.move source destination options) id
  setMetadata : ∀ path metadata, Answers (b.setMetadata path metadata) id
  setVisibility : ∀ path visibility, Answers (b.setVisibility path visibility) id

theorem guarded_answers {capability : Capability} {operation : Operation} {reject : Err → α}
    {errOf : α → Option Err} {call : Method σ α} (hreject : ∀ err, errOf (reject err) = some err)
    (h : config.readOnly ∨ Answers call errOf) :
    Answers (guarded config capability operation reject call) errOf := by
  unfold guarded
  split
  · refine .pure ?_
    rw [hreject]
    exact rejected_unsupported capability operation
  · rename_i hwritable
    exact h.resolve_left hwritable

/-- A layer over a backend that rejects rejects, and so does a read-only one. -/
theorem decorate_rejects (hashes : Hashes) (h : config.readOnly ∨ Rejects b) :
    Rejects (decorate hashes config b) where
  write path source options := by
    refine observeCall_obeys <| guarded_answers (fun _ ↦ rfl) (h.imp_right fun hb ↦ ?_)
    split
    · exact .pure rejected_root
    · exact internal_obeys <| (hb.write _ source options).bind fun _ hr ↦ .pure hr
  openWriter path options := by
    refine observeCall_obeys <| guarded_answers (fun _ ↦ rfl) (h.imp_right fun hb ↦ ?_)
    split
    · exact .pure rejected_root
    · exact internal_obeys (hb.openWriter _ options)
  delete path := observeCall_obeys <| guarded_answers (fun _ ↦ rfl) <| h.imp_right fun hb ↦
    internal_obeys (hb.delete _)
  copy source destination options :=
    observeCall_obeys <| guarded_answers (fun _ ↦ rfl) <| h.imp_right fun hb ↦
      internal_obeys <| internal_obeys (hb.copy _ _ options)
  move source destination options :=
    observeCall_obeys <| guarded_answers (fun _ ↦ rfl) <| h.imp_right fun hb ↦
      internal_obeys <| internal_obeys (hb.move _ _ options)
  setMetadata path metadata :=
    observeCall_obeys <| guarded_answers (fun _ ↦ rfl) <| h.imp_right fun hb ↦
      internal_obeys (hb.setMetadata _ metadata)
  setVisibility path visibility :=
    observeCall_obeys <| guarded_answers (fun _ ↦ rfl) <| h.imp_right fun hb ↦
      internal_obeys (hb.setVisibility _ visibility)

def HasReadOnly (configs : List Config) : Prop := ∃ config ∈ configs, config.readOnly = true

theorem hasReadOnly_cons :
    HasReadOnly (config :: configs) ↔ config.readOnly = true ∨ HasReadOnly configs := by
  simp [HasReadOnly]

/-- A read-only layer anywhere rejects for the whole stack. -/
theorem layers_rejects (hashes : Hashes) (h : HasReadOnly configs) (b : Backend σ) :
    Rejects (layers hashes configs b) := by
  induction configs with
  | nil => exact absurd h (by simp [HasReadOnly])
  | cons config configs ih =>
      exact decorate_rejects hashes ((hasReadOnly_cons.mp h).imp_right ih)

theorem mem_newCapabilitySet {c : Capability} {capabilities : List Capability} :
    c ∈ newCapabilitySet capabilities → c ∈ capabilities := by
  refine List.foldlRecOn (motive := fun values ↦ c ∈ values → c ∈ capabilities) capabilities _
    (fun h ↦ absurd h List.not_mem_nil) fun values h c' hc' hmem ↦ ?_
  split at hmem
  · exact h hmem
  · rcases List.mem_append.mp hmem with hmem | hmem
    · exact h hmem
    · rwa [List.mem_singleton.mp hmem]

/-- A read-only layer anywhere hides what changes something. -/
theorem layers_capabilities (hashes : Hashes) (h : HasReadOnly configs) (b : Backend σ) :
    ∀ c ∈ (layers hashes configs b).capabilities, mutating c = false := by
  induction configs with
  | nil => exact absurd h (by simp [HasReadOnly])
  | cons config configs ih =>
      intro c hc
      have hkept : c = .checksum ∨ c ∈ (if config.readOnly then
          (layers hashes configs b).capabilities.filter fun c ↦ !mutating c
          else (layers hashes configs b).capabilities) := by
        have hmem := mem_newCapabilitySet hc
        split at hmem
        · exact (List.mem_append.mp hmem).symm.imp_left List.mem_singleton.mp
        · exact .inr hmem
      rcases hkept with rfl | hkept
      · rfl
      · split at hkept
        · simpa using (List.mem_filter.mp hkept).2
        · rename_i hwritable
          exact ih ((hasReadOnly_cons.mp h).resolve_left hwritable) c hkept

/-- The access that a stack lets through to its backend. -/
def throughAll (configs : List Config) (A : Access) : Access := configs.foldr through A

theorem layers_obeys (hashes : Hashes) (configs : List Config) {D : Call.Discipline σ} {A : Access}
    (h : b.Obeys D A) : (layers hashes configs b).Obeys D (throughAll configs A) := by
  induction configs with
  | nil => exact h
  | cons config configs ih => exact decorate_obeys hashes config ih

theorem throughAll_reads (configs : List Config) (K : Set Str) (path : Path) :
    (throughAll configs (.within K)).reads path := by
  induction configs generalizing path with
  | nil => trivial
  | cons config configs ih => exact ih _

/-- Through a read-only layer, no operation reaches the backend that would have
to stay within the empty set. -/
theorem allowed_throughAll (h : HasReadOnly configs) (K : Set Str) (op : Op) :
    op.Allowed (throughAll configs (.within K)) := by
  have hchanges : ∀ path, (throughAll configs (.within K)).writes path ∧
      (throughAll configs (.within K)).removes path ∧
      (throughAll configs (.within K)).creates path ∧
      (throughAll configs (.within K)).modifies path := by
    induction configs with
    | nil => exact absurd h (by simp [HasReadOnly])
    | cons config configs ih =>
        intro path
        rcases hasReadOnly_cons.mp h with h | h
        · exact ⟨.inl h, .inl h, .inl h, .inl h⟩
        · obtain ⟨hw, hr, hc, hm⟩ := ih h (internalPath config.prefixPath path)
          exact ⟨.inr (.inr hw), .inr hr, .inr hc, .inr hm⟩
  cases op with
  | closeWriter handle chunks => trivial
  | write path source options => exact (hchanges path).1
  | openWriter path options => exact (hchanges path).1
  | delete path => exact (hchanges path).2.1
  | copy source destination options =>
      exact ⟨throughAll_reads _ _ _, (hchanges destination).2.2.1⟩
  | move source destination options => exact ⟨(hchanges source).2.1, (hchanges destination).2.2.1⟩
  | setMetadata path metadata => exact (hchanges path).2.2.2
  | setVisibility path visibility => exact (hchanges path).2.2.2
  | _ => exact throughAll_reads _ _ _

def Mutates : Op → Prop
  | .write _ _ _ | .openWriter _ _ | .delete _ | .copy _ _ _ | .move _ _ _ | .setMetadata _ _
  | .setVisibility _ _ => True
  | _ => False

/-- A backend that rejects gives no writer out. -/
theorem Rejects.call_writers (h : Rejects b) (op : Op) (env : Env) (frame : Frame σ) :
    Call.Ensures (Client.call b [] op) env frame fun r _ ↦ r.2 = [] := by
  have kept : ∀ {β : Type} (x : Method σ β) (f : β → Result),
      Call.Ensures (x >>= fun a ↦ pure (f a, ([] : List (OpenWriter σ)))) env frame
        fun r _ ↦ r.2 = [] := by
    intro β x f
    have hx : Call.Ensures x env frame fun _ _ ↦ True := fun _ _ _ ↦ trivial
    exact hx.bind fun _ _ _ ↦ .pure rfl
  cases op with
  | openWriter path options =>
      refine ((h.openWriter path options).ensures trivial).bind fun r _ hr ↦ ?_
      cases r with
      | error err => exact .pure rfl
      | ok writer =>
          obtain ⟨_, ⟨⟩, _⟩ := hr.2
  | closeWriter handle chunks => exact .pure rfl
  | temporaryURL path lifetime options =>
      unfold Client.call
      cases b.temporaryURL with
      | none => exact .pure rfl
      | some sign => exact kept _ _
  | _ => exact kept _ _

/-- An operation that changes something is answered with an error. -/
theorem Rejects.call_mutates (h : Rejects b) {op : Op} (hop : Mutates op) :
    Obeys (.keeping fun _ ↦ True) (Client.call b [] op) fun r ↦ Rejected r.1.error := by
  cases op with
  | write path source options => exact (h.write path source options).bind fun _ hr ↦ .pure hr
  | openWriter path options =>
      refine (h.openWriter path options).bind fun r hr ↦ ?_
      cases r with
      | error err => exact .pure hr
      | ok writer => obtain ⟨_, ⟨⟩, _⟩ := hr
  | delete path => exact (h.delete path).bind fun _ hr ↦ .pure hr
  | copy source destination options =>
      exact (h.copy source destination options).bind fun _ hr ↦ .pure hr
  | move source destination options =>
      exact (h.move source destination options).bind fun _ hr ↦ .pure hr
  | setMetadata path metadata => exact (h.setMetadata path metadata).bind fun _ hr ↦ .pure hr
  | setVisibility path visibility =>
      exact (h.setVisibility path visibility).bind fun _ hr ↦ .pure hr
  | _ => exact hop.elim

/-- What an operation returns through a read-only layer, the objects and the
writers are as before. -/
theorem perform_readOnly (hashes : Hashes) (h : HasReadOnly configs) {objects : Memory.Objects}
    {op : Op} {env : Env} {result : Result} {events : List Event} {client : Client Memory.Objects}
    (hperform : Client.perform (layers hashes configs (Memory.backend hashes)) op env
      { store := objects } = some (result, events, client)) : client = { store := objects } := by
  obtain ⟨⟨r, frame⟩, hcall, heq⟩ := Option.map_eq_some_iff.mp hperform
  obtain ⟨-, -, rfl⟩ : r.1 = result ∧ frame.events = events ∧ _ = client := by simpa using heq
  have hobeys := call_obeys (layers_obeys hashes configs (Memory.backend_frames hashes ∅))
    writersObey_nil (allowed_throughAll h ∅ op)
  have hstore : frame.store = objects :=
    Finmap.ext_lookup fun name ↦ (hobeys.ensures trivial _ _ hcall).1.2 name (Set.notMem_empty _)
  have hwriters : r.2 = [] := (layers_rejects hashes h _).call_writers op env _ _ _ hcall
  rw [hstore, hwriters]

/-- While every key is a path, every operation returns. -/
theorem perform_returns (hashes : Hashes) (h : HasReadOnly configs) {objects : Memory.Objects}
    (hkeys : Memory.KeysValid objects) (op : Op) (env : Env) :
    ∃ result events, Client.perform (layers hashes configs (Memory.backend hashes)) op env
      { store := objects } = some (result, events, { store := objects }) := by
  have hadmits : Memory.Admits _ (.within ∅) := Memory.keysValid_admits fun _ hp ↦ hp.elim
  have hobeys := call_obeys (layers_obeys hashes configs (Memory.backend_obeys hadmits hashes))
    writersObey_nil (allowed_throughAll h ∅ op)
  obtain ⟨r, frame, hcall, -⟩ := hobeys.returns id env (s := { store := objects }) hkeys
  have hperform := Client.perform_of_call (c := { store := objects }) hcall
  refine ⟨r.1, frame.events, ?_⟩
  rw [hperform, perform_readOnly hashes h hperform]

/-- **Read-only is airtight.**  In every run of operations on a stack over an
in-memory adapter with a read-only layer anywhere in it, the objects never
change and no writer is given out, and no operation panics unless a key is no
path; every operation that changes something returns an error that wraps
`ErrUnsupportedCapability` or `ErrInvalidPath`; and the stack supports none of
the capabilities to change something. -/
theorem readOnly_airtight (hashes : Hashes) (h : HasReadOnly configs) (objects : Memory.Objects) :
    (∀ steps client, Client.run (layers hashes configs (Memory.backend hashes)) steps
        { store := objects } = some client → client = { store := objects }) ∧
      (Memory.KeysValid objects → ∀ steps, Client.run
        (layers hashes configs (Memory.backend hashes)) steps { store := objects } =
          some { store := objects }) ∧
      (∀ op env, Mutates op → ∃ result events, Client.perform
        (layers hashes configs (Memory.backend hashes)) op env { store := objects } =
          some (result, events, { store := objects }) ∧ Rejected result.error) ∧
      ∀ c ∈ [Capability.write, .streamingWrite, .delete, .copy, .move, .metadata, .visibility,
        .multipart], c ∉ (layers hashes configs (Memory.backend hashes)).capabilities := by
  refine ⟨?_, ?_, ?_, ?_⟩
  · intro steps
    induction steps with
    | nil => exact fun client hrun ↦ (Option.some.inj hrun).symm
    | cons step steps ih =>
        intro client hrun
        obtain ⟨⟨result, events, next⟩, hperform, hrest⟩ := Option.bind_eq_some_iff.mp hrun
        rw [perform_readOnly hashes h hperform] at hrest
        exact ih client hrest
  · intro hkeys steps
    induction steps with
    | nil => rfl
    | cons step steps ih =>
        obtain ⟨result, events, hperform⟩ := perform_returns hashes h hkeys step.1 step.2
        rw [Client.run, hperform]
        exact ih
  · intro op env hop
    obtain ⟨r, frame, hcall, -, hrejected⟩ :=
      ((layers_rejects hashes h (Memory.backend hashes)).call_mutates hop).returns id env
        (s := { store := objects }) trivial
    have hperform := Client.perform_of_call (c := { store := objects }) hcall
    refine ⟨r.1, frame.events, ?_, hrejected⟩
    rw [hperform, perform_readOnly hashes h hperform]
  · intro c hc hmem
    have hkept := layers_capabilities hashes h _ c hmem
    simp only [List.mem_cons, List.not_mem_nil, or_false] at hc
    rcases hc with rfl | rfl | rfl | rfl | rfl | rfl | rfl | rfl <;> contradiction

def readOnlyBetween : List Config := [tenant, { readOnly := true }, { checksums := true }]

theorem readOnlyBetween_delete :
    let env : Env := ⟨fun _ ↦ none, 0, (KeyOrder.increasing Str).toIterOrder,
      (KeyOrder.increasing Str).toIterOrder⟩
    let hashes : Hashes := ⟨id, id, fun _ ↦ 0⟩
    HasReadOnly readOnlyBetween ∧ ∃ result events,
      Client.perform (layers hashes readOnlyBetween (Memory.backend hashes)) (.delete user) env
          { store := Memory.new } = some (result, events, { store := Memory.new }) ∧
        Rejected result.error := by
  intro env hashes
  have h : HasReadOnly readOnlyBetween := ⟨{ readOnly := true }, by simp [readOnlyBetween], rfl⟩
  exact ⟨h, (readOnly_airtight hashes h Memory.new).2.2.1 (.delete user) env trivial⟩

end GoFilesystem.Decorator
