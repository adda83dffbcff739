import GoFilesystem.Go.PathName

/-!
# Logical paths

The path type of the root package (`path.go`).  `normalizePath` is the body of
`ParsePath` on strings, with each of its error exits; `NormalForm` is the
documented shape of what it returns, and the two agree: an accepted string
normalises to a string in normal form, and a string in normal form is accepted
unchanged.

In the source the field of `Path` is private, so that a value of the type is
the root or something `ParsePath` returned.  Here the structure carries that
fact as a field, so that no operation needs it as an assumption.
-/

namespace GoFilesystem

open Go

/-- Why `ParsePath` rejects a string. -/
inductive PathReason where
  | empty
  | platformSpecific
  | controlCharacter
  | parentSegment
  | noSegments
deriving DecidableEq, Repr

/-- The error of `invalidPath`: the text it quotes and the reason it names. -/
structure PathError where
  value : Str
  reason : PathReason
deriving DecidableEq, Repr

/-- An ASCII letter followed by a colon. -/
def hasWindowsVolume : Str → Bool
  | c :: d :: _ => d == colon && isAsciiLetter c
  | _ => false

/-- The segment loop of `ParsePath`: `none` when it meets a parent segment. -/
def normalizeSegments : List Str → Option (List Str)
  | [] => some []
  | segment :: segments =>
    if segment = [dot, dot] then none
    else if segment ≠ [] ∧ segment ≠ [dot] then
      (normalizeSegments segments).map (segment :: ·)
    else normalizeSegments segments

/-- `ParsePath` on the level of strings. -/
def normalizePath (value : Str) : Except PathError Str :=
  if value = [] then .error ⟨value, .empty⟩
  else if [backslash, backslash].isPrefixOf value || hasWindowsVolume value then
    .error ⟨value, .platformSpecific⟩
  else if (runes value).any fun character ↦ character == 0 || isControl character then
    .error ⟨value, .controlCharacter⟩
  else
    let value := replaceAll backslash slash value
    match normalizeSegments (value.splitOn slash) with
    | none => .error ⟨value, .parentSegment⟩
    | some [] => .error ⟨value, .noSegments⟩
    | some normalized =>
      let normalizedValue := [slash].intercalate normalized
      if hasWindowsVolume normalizedValue then .error ⟨value, .platformSpecific⟩
      else .ok normalizedValue

/-- A segment that survives normalisation. -/
def ProperSegment (segment : Str) : Prop :=
  segment ≠ [] ∧ segment ≠ [dot] ∧ segment ≠ [dot, dot]

instance (segment : Str) : Decidable (ProperSegment segment) := by
  unfold ProperSegment; infer_instance

/-- The documented normal form of a path other than the root. -/
structure NormalForm (value : Str) : Prop where
  segments : ∀ segment ∈ value.splitOn slash, ProperSegment segment
  noBackslash : backslash ∉ value
  noControl : hasControlByte value = false
  noVolume : hasWindowsVolume value = false

instance (value : Str) : Decidable (NormalForm value) :=
  decidable_of_iff ((∀ segment ∈ value.splitOn slash, ProperSegment segment) ∧
    backslash ∉ value ∧ hasControlByte value = false ∧ hasWindowsVolume value = false)
    ⟨fun h ↦ ⟨h.1, h.2.1, h.2.2.1, h.2.2.2⟩,
      fun h ↦ ⟨h.segments, h.noBackslash, h.noControl, h.noVolume⟩⟩

/-! ## What the segment loop does -/

theorem normalizeSegments_of_proper {segments : List Str}
    (h : ∀ segment ∈ segments, ProperSegment segment) :
    normalizeSegments segments = some segments := by
  induction segments with
  | nil => rfl
  | cons segment segments ih =>
      obtain ⟨hempty, hdot, hparent⟩ := h segment (by simp)
      simp [normalizeSegments, hempty, hdot, hparent,
        ih fun s hs ↦ h s (List.mem_cons_of_mem _ hs)]

/-- The loop keeps segments of its input, and only proper ones. -/
theorem proper_of_normalizeSegments {segments normalized : List Str}
    (h : normalizeSegments segments = some normalized) :
    ∀ segment ∈ normalized, segment ∈ segments ∧ ProperSegment segment := by
  induction segments generalizing normalized with
  | nil =>
      simp only [normalizeSegments, Option.some.injEq] at h
      subst h
      simp
  | cons segment segments ih =>
      unfold normalizeSegments at h
      split_ifs at h with hparent hproper
      · obtain ⟨rest, hrest, rfl⟩ := Option.map_eq_some_iff.mp h
        intro s hs
        rcases List.mem_cons.mp hs with rfl | hs
        · exact ⟨by simp, hproper.1, hproper.2, hparent⟩
        · exact ⟨List.mem_cons_of_mem _ (ih hrest s hs).1, (ih hrest s hs).2⟩
      · intro s hs
        exact ⟨List.mem_cons_of_mem _ (ih h s hs).1, (ih h s hs).2⟩

/-! ## Acceptance and normal form -/

variable {value : Str}

theorem NormalForm.ne_nil (h : NormalForm value) : value ≠ [] := by
  rintro rfl
  exact (h.segments [] (by simp)).1 rfl

theorem NormalForm.ne_current (h : NormalForm value) : value ≠ PathName.current := by
  rintro rfl
  exact (h.segments [dot] (by decide)).2.1 rfl

theorem replaceAll_of_notMem {old new : UInt8} {s : Str} (h : old ∉ s) :
    replaceAll old new s = s := by
  unfold replaceAll
  conv_rhs => rw [← List.map_id s]
  apply List.map_congr_left
  intro c hc
  have hne : c ≠ old := fun heq ↦ h (heq ▸ hc)
  simp [hne]

theorem notMem_replaceAll {old new : UInt8} (hne : new ≠ old) (s : Str) :
    old ∉ replaceAll old new s := by
  intro h
  obtain ⟨c, -, hc⟩ := List.mem_map.mp h
  split at hc
  · exact hne hc
  · contradiction

/-- The control check of `ParsePath`, read off the bytes. -/
theorem any_control_runes (value : Str) :
    ((runes value).any fun character ↦ character == 0 || isControl character) =
      hasControlByte value := by
  rw [← any_isControl_runes]
  congr 1
  funext character
  cases character with
  | zero => rfl
  | succ n => simp

/-- A string in normal form is accepted unchanged. -/
theorem NormalForm.normalizePath_eq (h : NormalForm value) : normalizePath value = .ok value := by
  have hb : [backslash, backslash].isPrefixOf value = false := by
    rw [← Bool.not_eq_true, List.isPrefixOf_iff_prefix]
    exact fun hp ↦ h.noBackslash (hp.subset (by simp))
  obtain ⟨first, rest, hs⟩ := List.exists_cons_of_ne_nil (List.splitOn_ne_nil slash value)
  have hn := normalizeSegments_of_proper h.segments
  rw [hs] at hn
  unfold normalizePath
  rw [if_neg h.ne_nil, hb, h.noVolume, any_control_runes, h.noControl]
  simp only [Bool.or_self, Bool.false_eq_true, if_false, replaceAll_of_notMem h.noBackslash, hs,
    hn]
  rw [← hs, List.intercalate_splitOn, h.noVolume]
  rfl

/-- What `ParsePath` accepts normalises to a string in normal form. -/
theorem normalForm_of_normalizePath {value normalized : Str}
    (h : normalizePath value = .ok normalized) : NormalForm normalized := by
  unfold normalizePath at h
  split_ifs at h with hempty hplatform hcontrol
  rw [any_control_runes, Bool.not_eq_true] at hcontrol
  simp only at h
  split at h
  · contradiction
  · contradiction
  · rename_i segments hne hsegments
    split_ifs at h with hvolume
    rw [Except.ok.injEq] at h
    subst h
    have hproper := proper_of_normalizeSegments hsegments
    have hslash : ∀ segment ∈ segments, slash ∉ segment := fun s hs ↦
      notMem_of_mem_splitOn (hproper s hs).1
    refine ⟨?_, ?_, ?_, by simpa using hvolume⟩
    · rw [List.splitOn_intercalate slash hslash hne]
      exact fun s hs ↦ (hproper s hs).2
    · intro hb
      rcases mem_intercalate hb with hb | ⟨s, hs, hb⟩
      · exact absurd hb (by decide)
      · exact notMem_replaceAll (by decide) value (mem_of_mem_splitOn (hproper s hs).1 hb)
    · have hsplit : [slash].intercalate ((replaceAll backslash slash value).splitOn slash) =
          replaceAll backslash slash value := List.intercalate_splitOn slash
      rw [← hasControlByte_replaceAll, ← hsplit, hasControlByte_intercalate,
        List.any_eq_false] at hcontrol
      rw [hasControlByte_intercalate, List.any_eq_false]
      exact fun s hs ↦ hcontrol s (hproper s hs).1

/-! ## Normal forms and slashes -/

theorem hasWindowsVolume_append_slash {a b : Str} (ha : a ≠ []) :
    hasWindowsVolume (a ++ slash :: b) = hasWindowsVolume a := by
  match a with
  | [] => contradiction
  | [c] => rfl
  | _ :: _ :: _ => rfl

/-- Two normal forms joined by a slash are a normal form. -/
theorem NormalForm.append {a b : Str} (ha : NormalForm a) (hb : NormalForm b) :
    NormalForm (a ++ slash :: b) where
  segments segment h := by
    rw [List.splitOn_append_cons_self, List.mem_append] at h
    exact h.elim (ha.segments segment) (hb.segments segment)
  noBackslash h := by
    rcases List.mem_append.mp h with h | h
    · exact ha.noBackslash h
    · rcases List.mem_cons.mp h with h | h
      · exact absurd h (by decide)
      · exact hb.noBackslash h
  noControl := by rw [hasControlByte_append_cons, ha.noControl, hb.noControl]; rfl
  noVolume := by rw [hasWindowsVolume_append_slash ha.ne_nil, ha.noVolume]

/-- The part of a normal form before a slash is one. -/
theorem NormalForm.left {a b : Str} (h : NormalForm (a ++ slash :: b)) : NormalForm a := by
  have hsegments := h.segments
  rw [List.splitOn_append_cons_self] at hsegments
  have hcontrol := h.noControl
  rw [hasControlByte_append_cons, Bool.or_eq_false_iff] at hcontrol
  have hne : a ≠ [] := by
    rintro rfl
    exact (hsegments [] (by simp)).1 rfl
  have hvolume := h.noVolume
  rw [hasWindowsVolume_append_slash hne] at hvolume
  exact ⟨fun s hs ↦ hsegments s (List.mem_append_left _ hs),
    fun hb ↦ h.noBackslash (List.mem_append_left _ hb), hcontrol.1, hvolume⟩

/-- The part of a normal form after a slash is not empty. -/
theorem NormalForm.right_ne_nil {a b : Str} (h : NormalForm (a ++ slash :: b)) : b ≠ [] := by
  rintro rfl
  have hsegments := h.segments
  rw [List.splitOn_append_cons_self] at hsegments
  exact (hsegments [] (by simp)).1 rfl

/-! ## Cleaning -/

theorem foldl_cleanElement {segments kept : List Str}
    (h : ∀ segment ∈ segments, ProperSegment segment) :
    segments.foldl (PathName.cleanElement false) kept = segments.reverse ++ kept := by
  induction segments generalizing kept with
  | nil => rfl
  | cons segment segments ih =>
      obtain ⟨hempty, hdot, hparent⟩ := h segment List.mem_cons_self
      have hkept : PathName.cleanElement false kept segment = segment :: kept := by
        simp [PathName.cleanElement, PathName.current, PathName.parent, hempty, hdot, hparent]
      rw [List.foldl_cons, hkept, ih fun x hx ↦ h x (List.mem_cons_of_mem _ hx)]
      simp

/-- A path does not begin with a slash. -/
theorem NormalForm.head_ne (h : NormalForm value) : value.head? ≠ some slash := by
  obtain ⟨c, rest, rfl⟩ := List.exists_cons_of_ne_nil h.ne_nil
  intro heq
  obtain rfl : c = slash := Option.some.inj heq
  refine (h.segments [] ?_).1 rfl
  rw [List.splitOn_cons_eq_if_modifyHead]
  simp

/-- `path.Clean` of a relative name whose elements, up to dropped ones, are those
of `value`. -/
theorem clean_eq_of_kept {value name : Str} (hhead : name.head? ≠ some slash)
    (hkept : (name.splitOn slash).foldl (PathName.cleanElement false) [] =
      (value.splitOn slash).reverse) : PathName.clean name = value := by
  unfold PathName.clean
  simp only [hhead, decide_false, hkept, List.reverse_reverse, if_false]
  rw [if_neg (List.splitOn_ne_nil _ _), List.intercalate_splitOn]

/-- `path.Join` of a path and what follows it. -/
theorem NormalForm.join_eq {a b : Str} (h : NormalForm (a ++ slash :: b)) :
    PathName.join [a, b] = a ++ slash :: b := by
  have hfilter : [a, b].filter (· ≠ []) = [a, b] := by
    simp [h.left.ne_nil, h.right_ne_nil]
  have hjoin : [slash].intercalate [a, b] = a ++ slash :: b := by simp [List.intercalate]
  unfold PathName.join
  rw [hfilter, ← hjoin]
  refine clean_eq_of_kept ?_ ?_
  · rw [hjoin]
    exact h.head_ne
  · rw [hjoin, foldl_cleanElement h.segments, List.append_nil]

/-- `path.Join` of the current directory and a path. -/
theorem NormalForm.join_current {b : Str} (h : NormalForm b) :
    PathName.join [PathName.current, b] = b := by
  have hfilter : [PathName.current, b].filter (· ≠ []) = [PathName.current, b] := by
    simp [PathName.current, h.ne_nil]
  have hjoin : [slash].intercalate [PathName.current, b] = PathName.current ++ slash :: b := by
    simp [List.intercalate]
  unfold PathName.join
  rw [hfilter]
  refine clean_eq_of_kept (by rw [hjoin]; simp [PathName.current, dot, slash]) ?_
  rw [hjoin, List.splitOn_append_cons_self, List.foldl_append]
  exact (foldl_cleanElement h.segments).trans (List.append_nil _)

/-! ## The path type -/

/-- `filesystem.Path`: the logical root, or a normalised path. -/
structure Path where
  value : Str
  canonical : value = [] ∨ NormalForm value
deriving DecidableEq

variable {p : Path}

namespace Path

@[ext] theorem ext {p q : Path} (h : p.value = q.value) : p = q := by
  cases p
  cases q
  simpa using h

/-- `Root`, the zero value. -/
def root : Path := ⟨[], .inl rfl⟩

/-- `Path.IsRoot`. -/
def isRoot (p : Path) : Bool := p.value == []

@[simp] theorem isRoot_iff : p.isRoot = true ↔ p = root := by
  rw [isRoot, beq_iff_eq, Path.ext_iff]
  rfl

@[simp] theorem isRoot_eq_false_iff : p.isRoot = false ↔ p ≠ root := by
  rw [← Bool.not_eq_true, isRoot_iff]

theorem normalForm (h : p ≠ root) : NormalForm p.value :=
  p.canonical.resolve_left fun h' ↦ h (Path.ext h')

instance : Inhabited Path := ⟨root⟩

def a : Path := ⟨.lit "a", .inr (by decide)⟩

def b : Path := ⟨.lit "b", .inr (by decide)⟩

end Path

/-- `ParsePath`. -/
def parsePath (value : Str) : Except PathError Path :=
  match h : normalizePath value with
  | .error err => .error err
  | .ok normalized => .ok ⟨normalized, .inr (normalForm_of_normalizePath h)⟩

theorem NormalForm.parsePath_eq (h : NormalForm value) : parsePath value = .ok ⟨value, .inr h⟩ := by
  unfold parsePath
  split
  · rename_i hp
    rw [h.normalizePath_eq] at hp
    contradiction
  · rename_i hp
    rw [h.normalizePath_eq, Except.ok.injEq] at hp
    subst hp
    rfl

/-- `ParsePath` does not change a string of proper segments. -/
theorem value_of_parsePath (h : parsePath value = .ok p)
    (hsegments : ∀ segment ∈ value.splitOn slash, ProperSegment segment)
    (hbackslash : backslash ∉ value) : p.value = value := by
  have hnormal : NormalForm value := by
    unfold parsePath at h
    split at h
    · contradiction
    · rename_i hp
      unfold normalizePath at hp
      split_ifs at hp with hempty hplatform hcontrol
      rw [any_control_runes, Bool.not_eq_true] at hcontrol
      rw [Bool.or_eq_true, not_or, Bool.not_eq_true, Bool.not_eq_true] at hplatform
      exact ⟨hsegments, hbackslash, hcontrol, hplatform.2⟩
  rw [hnormal.parsePath_eq, Except.ok.injEq] at h
  rw [← h]

/-- A path that `ParsePath` returns is never the root. -/
theorem ne_root_of_parsePath (h : parsePath value = .ok p) : p ≠ Path.root := by
  unfold parsePath at h
  split at h
  · contradiction
  · rename_i hp
    rw [Except.ok.injEq] at h
    subst h
    intro hroot
    exact (normalForm_of_normalizePath hp).ne_nil (congrArg Path.value hroot)

/-- `Path.Base`. -/
def Path.base (p : Path) : Str := PathName.base p.value

/-- `Path.Join`. -/
def Path.join (p : Path) (relative : Str) : Except PathError Path :=
  match parsePath relative with
  | .error err => .error err
  | .ok joined => if p.isRoot then .ok joined else parsePath (p.value ++ slash :: joined.value)

end GoFilesystem
