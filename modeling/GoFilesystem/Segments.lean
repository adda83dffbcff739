import GoFilesystem.Path

/-!
# Paths as lists of segments

What a path means is the list of its segments.  A string is split at slashes and
backslashes, and its empty and dot segments are dropped (`segmentsOf`);
`ParsePath` accepts or rejects the string, and the path it returns is these
segments with slashes between them.  Equality of paths, `Dir` with `Base`, and
`Join` are read off the lists.

| operation | on segments |
| --- | --- |
| `ParsePath` | the segments of the string |
| `Dir` | all but the last segment |
| `Base` | the last segment |
| `Join` | the segments of both |

`Dir` and `Join` are first written on strings, as the source has them: `Dir`
builds its result without `ParsePath`, so that the normal form of what it
returns is a theorem about `path.Clean`.

`Join` parses what it appends as a path of its own.  A segment such as `c:x` is
accepted inside a path and rejected at the start of one, hence `Join` does not
always put back what `Dir` and `Base` took apart.
-/

namespace GoFilesystem

open Go

/-! ## The segments of a string -/

/-- Where `ParsePath` splits a string. -/
def isSeparator (c : UInt8) : Bool := c == slash || c == backslash

/-- The segments of a string, without the empty ones and the dots. -/
def segmentsOf (value : Str) : List Str :=
  (value.splitOnP isSeparator).filter fun segment ↦ segment ≠ [] ∧ segment ≠ [dot]

/-- Replacing backslashes and splitting at slashes is splitting at both. -/
theorem splitOn_replaceAll (value : Str) :
    (replaceAll backslash slash value).splitOn slash = value.splitOnP isSeparator := by
  induction value with
  | nil => rfl
  | cons c value ih =>
      have hcons : replaceAll backslash slash (c :: value) =
          (if c = backslash then slash else c) :: replaceAll backslash slash value := rfl
      have hsep : ((if c = backslash then slash else c) == slash) = isSeparator c := by
        by_cases hc : c = backslash <;> simp [isSeparator, hc]
      rw [hcons, List.splitOn_cons_eq_if_modifyHead, List.splitOnP_cons_eq_if_modifyHead, hsep, ih]
      by_cases hc : isSeparator c = true
      · rw [if_pos hc, if_pos hc]
      · rw [if_neg hc, if_neg hc]
        have hne : c ≠ backslash := by
          rintro rfl
          exact hc rfl
        rw [if_neg hne]

/-- The segment loop drops the empty and dot segments and no others. -/
theorem eq_filter_of_normalizeSegments {segments normalized : List Str}
    (h : normalizeSegments segments = some normalized) :
    normalized = segments.filter fun segment ↦ segment ≠ [] ∧ segment ≠ [dot] := by
  induction segments generalizing normalized with
  | nil =>
      simp only [normalizeSegments, Option.some.injEq] at h
      rw [← h]
      rfl
  | cons segment segments ih =>
      unfold normalizeSegments at h
      split_ifs at h with hparent hproper
      · obtain ⟨rest, hrest, rfl⟩ := Option.map_eq_some_iff.mp h
        rw [List.filter_cons_of_pos (by simpa using hproper), ih hrest]
      · rw [List.filter_cons_of_neg (by simpa using hproper), ih h]

/-- What `ParsePath` returns is the segments of its argument. -/
theorem eq_intercalate_of_normalizePath {value normalized : Str}
    (h : normalizePath value = .ok normalized) :
    normalized = [slash].intercalate (segmentsOf value) := by
  unfold normalizePath at h
  split_ifs at h
  simp only [splitOn_replaceAll] at h
  split at h
  · contradiction
  · contradiction
  · rename_i segments _ hsegments
    split_ifs at h
    rw [← Except.ok.inj h, eq_filter_of_normalizeSegments hsegments]
    rfl

variable {value : Str}

/-- A path is split at its slashes. -/
theorem NormalForm.segmentsOf_eq (h : NormalForm value) :
    segmentsOf value = value.splitOn slash := by
  have hsplit := splitOn_replaceAll value
  rw [replaceAll_of_notMem h.noBackslash] at hsplit
  unfold segmentsOf
  rw [← hsplit, List.filter_eq_self]
  intro segment hsegment
  have hproper := h.segments segment hsegment
  exact decide_eq_true ⟨hproper.1, hproper.2.1⟩

/-- A path is the segments it has, with slashes between them. -/
theorem NormalForm.intercalate_segmentsOf (h : NormalForm value) :
    [slash].intercalate (segmentsOf value) = value := by
  rw [h.segmentsOf_eq, List.intercalate_splitOn]

theorem NormalForm.eq_of_segmentsOf {a b : Str} (ha : NormalForm a) (hb : NormalForm b)
    (h : segmentsOf a = segmentsOf b) : a = b := by
  rw [← ha.intercalate_segmentsOf, h, hb.intercalate_segmentsOf]

/-- `ParsePath` keeps the segments. -/
theorem segmentsOf_normalizePath {value normalized : Str}
    (h : normalizePath value = .ok normalized) : segmentsOf normalized = segmentsOf value := by
  have hnormal := normalForm_of_normalizePath h
  have hslash : ∀ segment ∈ segmentsOf value, slash ∉ segment := by
    intro segment hsegment
    refine notMem_of_mem_splitOn (s := replaceAll backslash slash value) ?_
    rw [splitOn_replaceAll]
    exact (List.mem_filter.mp hsegment).1
  have hne : segmentsOf value ≠ [] := by
    intro hnil
    refine hnormal.ne_nil ?_
    rw [eq_intercalate_of_normalizePath h, hnil]
    rfl
  rw [hnormal.segmentsOf_eq, eq_intercalate_of_normalizePath h,
    List.splitOn_intercalate slash hslash hne]

/-- Two accepted strings give the same path when they have the same segments. -/
theorem normalizePath_eq_iff {a b p q : Str} (ha : normalizePath a = .ok p)
    (hb : normalizePath b = .ok q) : p = q ↔ segmentsOf a = segmentsOf b := by
  rw [← segmentsOf_normalizePath ha, ← segmentsOf_normalizePath hb]
  constructor
  · intro h
    rw [h]
  · exact (normalForm_of_normalizePath ha).eq_of_segmentsOf (normalForm_of_normalizePath hb)

/-- The segments on both sides of a slash. -/
theorem segmentsOf_append_slash (a b : Str) :
    segmentsOf (a ++ slash :: b) = segmentsOf a ++ segmentsOf b := by
  unfold segmentsOf
  rw [List.splitOnP_append_cons a b rfl, List.filter_append]

/-- A segment that survives normalisation is the only one it has. -/
theorem ProperSegment.segmentsOf_eq {segment : Str} (h : ProperSegment segment)
    (hslash : slash ∉ segment) (hbackslash : backslash ∉ segment) :
    segmentsOf segment = [segment] := by
  unfold segmentsOf
  rw [← splitOn_replaceAll, replaceAll_of_notMem hbackslash, List.splitOn_eq_singleton hslash]
  simp [h.1, h.2.1]

/-! ## The directory of a path -/

/-- `Path.Dir` on the level of strings. -/
def dirValue (value : Str) : Str :=
  let directory := PathName.dir value
  if directory = PathName.current then [] else directory

/-- A string has no slash, or a last one. -/
theorem notMem_or_last_slash (value : Str) :
    slash ∉ value ∨ ∃ pre child, value = pre ++ slash :: child ∧ slash ∉ child := by
  by_cases h : slash ∈ value
  · obtain ⟨child, pre, heq, hchild⟩ := List.eq_append_cons_of_mem (List.mem_reverse.mpr h)
    refine .inr ⟨pre.reverse, child.reverse, ?_, by simpa using hchild⟩
    rw [← List.reverse_reverse value, heq]
    simp
  · exact .inl h

theorem dirValue_of_notMem (h : slash ∉ value) : dirValue value = [] := by
  unfold dirValue
  rw [PathName.dir_of_notMem h]
  rfl

/-- `path.Clean` takes the slash off a path. -/
theorem NormalForm.clean_append_slash (h : NormalForm value) :
    PathName.clean (value ++ [slash]) = value := by
  refine clean_eq_of_kept ?_ ?_
  · rw [List.head?_append_of_ne_nil _ h.ne_nil]
    exact h.head_ne
  · rw [List.splitOn_append_cons_self, List.foldl_append, foldl_cleanElement h.segments]
    simp [PathName.cleanElement]

theorem NormalForm.dirValue_append {pre child : Str} (h : NormalForm (pre ++ slash :: child))
    (hchild : slash ∉ child) : dirValue (pre ++ slash :: child) = pre := by
  unfold dirValue
  rw [PathName.dir_append hchild, h.left.clean_append_slash]
  exact if_neg h.left.ne_current

/-- The directory of a path is the root or a path. -/
theorem NormalForm.dirValue (h : NormalForm value) :
    dirValue value = [] ∨ NormalForm (GoFilesystem.dirValue value) := by
  rcases notMem_or_last_slash value with hslash | ⟨pre, child, rfl, hchild⟩
  · exact .inl (dirValue_of_notMem hslash)
  · rw [h.dirValue_append hchild]
    exact .inr h.left

/-- `Path.Dir`. -/
def Path.dir (p : Path) : Path where
  value := dirValue p.value
  canonical := by
    rcases p.canonical with h | h
    · rw [h]
      exact .inl rfl
    · exact h.dirValue

/-! ## Joining -/

/-- `Path.Join` on the level of strings. -/
def joinValue (value relative : Str) : Except PathError Str :=
  match normalizePath relative with
  | .error err => .error err
  | .ok joined => if value = [] then .ok joined else normalizePath (value ++ slash :: joined)

variable {p : Path}

/-- The parser of paths is the parser of strings. -/
theorem parsePath_eq_ok : parsePath value = .ok p ↔ normalizePath value = .ok p.value := by
  unfold parsePath
  split
  · rename_i h
    simp [h]
  · rename_i h
    simp [h, Path.ext_iff]

theorem parsePath_eq_error {err : PathError} :
    parsePath value = .error err ↔ normalizePath value = .error err := by
  unfold parsePath
  split
  · rename_i h
    simp [h]
  · rename_i h
    simp [h]

/-- A path stays as it is before what `Join` appends: the second `ParsePath`
finds a normal form and never fails. -/
theorem joinValue_eq (hvalue : value = [] ∨ NormalForm value) (relative : Str) :
    joinValue value relative = (normalizePath relative).map fun joined ↦
      if value = [] then joined else value ++ slash :: joined := by
  unfold joinValue
  cases hparse : normalizePath relative with
  | error err => rfl
  | ok joined =>
      rcases hvalue with rfl | hvalue
      · rfl
      · have happend := hvalue.append (normalForm_of_normalizePath hparse)
        simp only [hvalue.ne_nil, if_false, happend.normalizePath_eq, Except.map]

theorem joinValue_eq_ok {value relative joined : Str} (hvalue : value = [] ∨ NormalForm value) :
    joinValue value relative = .ok joined ↔ ∃ rest, normalizePath relative = .ok rest ∧
      joined = if value = [] then rest else value ++ slash :: rest := by
  rw [joinValue_eq hvalue]
  cases normalizePath relative with
  | error err => simp [Except.map]
  | ok rest => simp [Except.map, eq_comm]

/-- What `Join` returns is in normal form. -/
theorem normalForm_of_joinValue {value relative joined : Str}
    (hvalue : value = [] ∨ NormalForm value) (h : joinValue value relative = .ok joined) :
    NormalForm joined := by
  obtain ⟨rest, hrest, rfl⟩ := (joinValue_eq_ok hvalue).mp h
  have hnormal := normalForm_of_normalizePath hrest
  rcases hvalue with rfl | hvalue
  · exact hnormal
  · rw [if_neg hvalue.ne_nil]
    exact hvalue.append hnormal

/-- `Join` appends segments. -/
theorem segmentsOf_joinValue {value relative joined : Str}
    (hvalue : value = [] ∨ NormalForm value) (h : joinValue value relative = .ok joined) :
    segmentsOf joined = segmentsOf value ++ segmentsOf relative := by
  obtain ⟨rest, hrest, rfl⟩ := (joinValue_eq_ok hvalue).mp h
  rw [← segmentsOf_normalizePath hrest]
  rcases hvalue with rfl | hvalue
  · rfl
  · rw [if_neg hvalue.ne_nil, segmentsOf_append_slash]

theorem Path.join_eq_ok {p joined : Path} {relative : Str} :
    p.join relative = .ok joined ↔ joinValue p.value relative = .ok joined.value := by
  unfold Path.join joinValue
  cases hparse : parsePath relative with
  | error err =>
      rw [parsePath_eq_error.mp hparse]
      simp
  | ok rest =>
      rw [parsePath_eq_ok.mp hparse]
      by_cases hroot : p = .root
      · simp [hroot, Path.root, Path.isRoot, Path.ext_iff]
      · simp only [Path.isRoot_eq_false_iff.mpr hroot, (p.normalForm hroot).ne_nil,
          Bool.false_eq_true, if_false]
        exact parsePath_eq_ok

def Path.segments (p : Path) : List Str := if p.isRoot then [] else p.value.splitOn slash

theorem Path.segments_eq (p : Path) : p.segments = segmentsOf p.value := by
  unfold Path.segments
  by_cases hroot : p = .root
  · rw [hroot]
    rfl
  · rw [Path.isRoot_eq_false_iff.mpr hroot, (p.normalForm hroot).segmentsOf_eq]
    rfl

theorem Path.eq_of_segments {p q : Path} (hp : p ≠ .root) (hq : q ≠ .root)
    (h : p.segments = q.segments) : p = q := by
  rw [p.segments_eq, q.segments_eq] at h
  exact Path.ext ((p.normalForm hp).eq_of_segmentsOf (q.normalForm hq) h)

theorem Path.segments_ne_nil (hp : p ≠ .root) : p.segments ≠ [] := by
  rw [Path.segments, Path.isRoot_eq_false_iff.mpr hp]
  exact List.splitOn_ne_nil _ _

/-- A path is its segments with slashes between them. -/
theorem Path.intercalate_segments (hp : p ≠ .root) : [slash].intercalate p.segments = p.value := by
  rw [Path.segments, Path.isRoot_eq_false_iff.mpr hp]
  exact List.intercalate_splitOn ..

theorem Path.segments_injective : Function.Injective Path.segments := by
  intro p q h
  by_cases hp : p = .root
  · by_cases hq : q = .root
    · rw [hp, hq]
    · exact absurd (h.symm.trans (congrArg Path.segments hp)) (Path.segments_ne_nil hq)
  · by_cases hq : q = .root
    · exact absurd (h.trans (congrArg Path.segments hq)) (Path.segments_ne_nil hp)
    · exact Path.eq_of_segments hp hq h

/-- `Join` appends segments, hence it never leaves the path it starts from. -/
theorem Path.segments_join {p joined : Path} {relative : Str}
    (h : p.join relative = .ok joined) :
    joined.segments = p.segments ++ segmentsOf relative := by
  rw [joined.segments_eq, p.segments_eq]
  exact segmentsOf_joinValue p.canonical (Path.join_eq_ok.mp h)

theorem Path.join_ne_root {p joined : Path} {relative : Str} (h : p.join relative = .ok joined) :
    joined ≠ .root := by
  rintro rfl
  exact (normalForm_of_joinValue p.canonical (Path.join_eq_ok.mp h)).ne_nil rfl

/-- The path lies strictly beneath the directory, segment by segment. -/
def Path.IsBeneath (path directory : Path) : Prop :=
  ∃ rest, rest ≠ [] ∧ path.segments = directory.segments ++ rest

theorem Path.isBeneath_iff {d : Path} (hd : d ≠ .root) (hp : p ≠ .root) :
    p.IsBeneath d ↔ d.value ++ [slash] <+: p.value := by
  constructor
  · rintro ⟨rest, hrest, hsegments⟩
    refine ⟨[slash].intercalate rest, ?_⟩
    rw [← Path.intercalate_segments hp, hsegments,
      intercalate_append _ (Path.segments_ne_nil hd) hrest, Path.intercalate_segments hd]
  · rintro ⟨rest, hrest⟩
    rw [List.append_assoc, List.singleton_append] at hrest
    refine ⟨rest.splitOn slash, List.splitOn_ne_nil _ _, ?_⟩
    rw [Path.segments, Path.segments, Path.isRoot_eq_false_iff.mpr hd,
      Path.isRoot_eq_false_iff.mpr hp, ← hrest]
    exact List.splitOn_append_cons_self ..

/-- `Join` accepts what `ParsePath` accepts. -/
theorem Path.exists_join_iff (p : Path) (relative : Str) :
    (∃ joined, p.join relative = .ok joined) ↔ ∃ rest, parsePath relative = .ok rest := by
  constructor
  · rintro ⟨joined, h⟩
    obtain ⟨rest, hrest, -⟩ := (joinValue_eq_ok p.canonical).mp (Path.join_eq_ok.mp h)
    exact ⟨⟨rest, .inr (normalForm_of_normalizePath hrest)⟩, parsePath_eq_ok.mpr hrest⟩
  · rintro ⟨rest, hrest⟩
    have hjoin := (joinValue_eq_ok p.canonical).mpr ⟨rest.value, parsePath_eq_ok.mp hrest, rfl⟩
    exact ⟨⟨_, .inr (normalForm_of_joinValue p.canonical hjoin)⟩, Path.join_eq_ok.mpr hjoin⟩

/-- **`Join` is concatenation of segments.**  It succeeds where `ParsePath` of
its argument does, it appends the segments of the argument, and joining twice is
joining once. -/
theorem join_concatenates (p : Path) :
    (∀ relative, (∃ joined, p.join relative = .ok joined) ↔
      ∃ rest, parsePath relative = .ok rest) ∧
    (∀ relative rest joined, parsePath relative = .ok rest → p.join relative = .ok joined →
      joined.segments = p.segments ++ rest.segments ∧ p.segments <+: joined.segments) ∧
    ∀ a b first twice once, p.join a = .ok first → first.join b = .ok twice →
      p.join (a ++ slash :: b) = .ok once → twice = once := by
  refine ⟨p.exists_join_iff, ?_, ?_⟩
  · intro relative rest joined hrest hjoined
    have hsegments := Path.segments_join hjoined
    rw [← segmentsOf_normalizePath (parsePath_eq_ok.mp hrest), ← rest.segments_eq] at hsegments
    exact ⟨hsegments, rest.segments, hsegments.symm⟩
  · intro a b first twice once hfirst htwice honce
    refine Path.eq_of_segments (Path.join_ne_root htwice) (Path.join_ne_root honce) ?_
    rw [Path.segments_join htwice, Path.segments_join hfirst, Path.segments_join honce,
      segmentsOf_append_slash, List.append_assoc]

/-- Joining below a one-letter path, in one step and in two. -/
theorem join_concatenates_at :
    let p : Path := ⟨.lit "c", .inr (by decide)⟩
    let first : Path := ⟨.lit "c/a", .inr (by decide)⟩
    let twice : Path := ⟨.lit "c/a/b/d:x", .inr (by decide)⟩
    p.join (.lit "a") = .ok first ∧ p.segments <+: first.segments ∧
      (∃ rest, parsePath (.lit "./b/d:x") = .ok rest) ∧ first.join (.lit "./b/d:x") = .ok twice ∧
      ∀ once, p.join (.lit "a/./b/d:x") = .ok once → twice = once := by
  intro p first twice
  have hfirst : p.join (.lit "a") = .ok first := Path.join_eq_ok.mpr (by decide)
  have htwice : first.join (.lit "./b/d:x") = .ok twice := Path.join_eq_ok.mpr (by decide)
  obtain ⟨rest, hrest⟩ := ((join_concatenates p).1 _).mp ⟨first, hfirst⟩
  exact ⟨hfirst, ((join_concatenates p).2.1 _ rest first hrest hfirst).2,
    ((join_concatenates first).1 _).mp ⟨twice, htwice⟩, htwice,
    fun once honce ↦ (join_concatenates p).2.2 _ _ first twice once hfirst htwice honce⟩

/-! ## What `Dir` and `Base` take apart -/

/-- The last segment of a path can stand alone, unless it looks like a drive. -/
theorem NormalForm.right {a b : Str} (h : NormalForm (a ++ slash :: b))
    (hvolume : hasWindowsVolume b = false) : NormalForm b := by
  have hsegments := h.segments
  rw [List.splitOn_append_cons_self] at hsegments
  have hcontrol := h.noControl
  rw [hasControlByte_append_cons, Bool.or_eq_false_iff] at hcontrol
  exact ⟨fun s hs ↦ hsegments s (List.mem_append_right _ hs),
    fun hb ↦ h.noBackslash (List.mem_append_right _ (List.mem_cons_of_mem _ hb)),
    hcontrol.2, hvolume⟩

/-- A path in the root is its own last segment; any other path is its directory,
a slash and its last segment. -/
theorem Path.dir_base (h : p ≠ .root) :
    (p.dir = .root ∧ p.base = p.value ∧ slash ∉ p.value) ∨
      (p.dir ≠ .root ∧ p.value = p.dir.value ++ slash :: p.base ∧ slash ∉ p.base) := by
  have hnormal := p.normalForm h
  rcases notMem_or_last_slash p.value with hslash | ⟨pre, child, hvalue, hchild⟩
  · exact .inl ⟨Path.ext (dirValue_of_notMem hslash),
      PathName.base_append (.inl rfl) hslash hnormal.ne_nil, hslash⟩
  · have hbase : p.base = child := by
      unfold Path.base
      rw [hvalue, ← List.singleton_append, ← List.append_assoc]
      exact PathName.base_append (.inr ⟨pre, rfl⟩) hchild (hvalue ▸ hnormal).right_ne_nil
    have hdir : p.dir.value = pre := by
      unfold Path.dir
      simp only [hvalue]
      exact (hvalue ▸ hnormal).dirValue_append hchild
    refine .inr ⟨?_, by rw [hdir, hbase, hvalue], hbase ▸ hchild⟩
    intro hroot
    exact (hvalue ▸ hnormal).left.ne_nil (hdir ▸ congrArg Path.value hroot)

/-- `Dir` and `Base` on segments. -/
theorem Path.segments_dir_base (h : p ≠ .root) : p.segments = p.dir.segments ++ [p.base] := by
  have hnormal := p.normalForm h
  have hsegments : p.segments = p.value.splitOn slash := by
    rw [p.segments_eq, hnormal.segmentsOf_eq]
  rcases Path.dir_base h with ⟨hdir, hbase, hslash⟩ | ⟨hdir, hvalue, hslash⟩
  · rw [hsegments, hdir, hbase, List.splitOn_eq_singleton hslash]
    rfl
  · have hdirectory : p.dir.segments = p.dir.value.splitOn slash := by
      rw [p.dir.segments_eq, (p.dir.normalForm hdir).segmentsOf_eq]
    rw [hsegments, hdirectory, hvalue, List.splitOn_append_cons_self,
      List.splitOn_eq_singleton hslash]

/-- `ParsePath` does not accept a drive. -/
theorem normalizePath_of_volume (h : hasWindowsVolume value = true) :
    normalizePath value = .error ⟨value, .platformSpecific⟩ := by
  have hne : value ≠ [] := by
    rintro rfl
    contradiction
  unfold normalizePath
  rw [if_neg hne, h, Bool.or_true]
  rfl

/-- **Taking a path apart and joining it again.**  The path comes back exactly
when its last segment does not look like a drive, as it never does in the root;
otherwise `Join` rejects the segment. -/
theorem dir_join_base (p : Path) (h : p ≠ .root) :
    (hasWindowsVolume p.base = false → p.dir.join p.base = .ok p) ∧
    (hasWindowsVolume p.base = true → p.dir ≠ .root ∧
      p.dir.join p.base = .error ⟨p.base, .platformSpecific⟩) := by
  have hnormal := p.normalForm h
  constructor
  · intro hvolume
    rw [Path.join_eq_ok, joinValue_eq_ok p.dir.canonical]
    rcases Path.dir_base h with ⟨hdir, hbase, -⟩ | ⟨hdir, hvalue, -⟩
    · refine ⟨p.value, ?_, ?_⟩
      · rw [hbase, hnormal.normalizePath_eq]
      · rw [hdir]
        rfl
    · refine ⟨p.base, ?_, ?_⟩
      · exact ((hvalue ▸ hnormal).right hvolume).normalizePath_eq
      · rw [if_neg (p.dir.normalForm hdir).ne_nil]
        exact hvalue
  · intro hvolume
    constructor
    · intro hdir
      rcases Path.dir_base h with ⟨-, hbase, -⟩ | ⟨hne, -⟩
      · rw [hbase, hnormal.noVolume] at hvolume
        contradiction
      · exact hne hdir
    · unfold Path.join
      rw [parsePath_eq_error.mpr (normalizePath_of_volume hvolume)]

/-- A path below the root and one in it. -/
theorem dir_join_base_at :
    let nested : Path := ⟨.lit "a/b.txt", .inr (by decide)⟩
    let drive : Path := ⟨.lit "a/c:b", .inr (by decide)⟩
    nested.dir.join nested.base = .ok nested ∧
      drive.dir.join drive.base = .error ⟨drive.base, .platformSpecific⟩ := by
  intro nested drive
  exact ⟨(dir_join_base nested (by decide)).1 (by decide),
    ((dir_join_base drive (by decide)).2 (by decide)).2⟩

/-- `a/c:b` is accepted, and not joined again from `a` and `c:b`. -/
theorem dir_join_base_drive :
    ∃ p, parsePath (.lit "a/c:b") = .ok p ∧ p ≠ .root ∧ p.dir.value = .lit "a" ∧
      p.base = .lit "c:b" ∧ p.dir.join p.base ≠ .ok p := by
  refine ⟨⟨.lit "a/c:b", .inr (by decide)⟩, ?_, by decide, by decide, by decide, by decide⟩
  exact NormalForm.parsePath_eq (by decide)

/-! ## Every path there is -/

/-- The values of the paths a program can get hold of. -/
inductive Obtainable : Str → Prop where
  /-- `Root`. -/
  | root : Obtainable []
  /-- `ParsePath`. -/
  | parse {raw value : Str} : normalizePath raw = .ok value → Obtainable value
  /-- `Path.Dir`. -/
  | dir {value : Str} : Obtainable value → Obtainable (dirValue value)
  /-- `Path.Join`. -/
  | join {value relative joined : Str} :
      Obtainable value → joinValue value relative = .ok joined → Obtainable joined

/-- Each operation keeps the normal form. -/
theorem Obtainable.canonical (h : Obtainable value) : value = [] ∨ NormalForm value := by
  induction h with
  | root => exact .inl rfl
  | parse hparse => exact .inr (normalForm_of_normalizePath hparse)
  | dir _ ih =>
      rcases ih with rfl | ih
      · exact .inl rfl
      · exact ih.dirValue
  | join _ hjoin ih => exact .inr (normalForm_of_joinValue ih hjoin)

/-- The path type holds the obtainable values and no others. -/
theorem obtainable_iff : Obtainable value ↔ ∃ p : Path, p.value = value := by
  constructor
  · intro h
    exact ⟨⟨value, h.canonical⟩, rfl⟩
  · rintro ⟨p, rfl⟩
    rcases p.canonical with h | h
    · rw [h]
      exact .root
    · exact .parse h.normalizePath_eq

/-- **Paths are canonical.**  What `Root`, `ParsePath`, `Dir` and `Join` return
has the documented form, `ParsePath` gives it back unchanged, and two accepted
strings give the same path exactly when they have the same segments. -/
theorem paths_canonical :
    (∀ value, Obtainable value → value = [] ∨
      ((∃ segments, segments ≠ [] ∧ value = [slash].intercalate segments ∧
        ∀ segment ∈ segments, segment ≠ [] ∧ segment ≠ [dot] ∧ segment ≠ [dot, dot] ∧
          slash ∉ segment) ∧
      backslash ∉ value ∧ (∀ character ∈ runes value, isControl character = false) ∧
      ∀ c rest, value = c :: colon :: rest → isAsciiLetter c = false)) ∧
    (∀ value, Obtainable value → value ≠ [] → normalizePath value = .ok value) ∧
    ∀ a b p q, normalizePath a = .ok p → normalizePath b = .ok q →
      (p = q ↔ segmentsOf a = segmentsOf b) := by
  refine ⟨?_, ?_, ?_⟩
  · intro value hvalue
    rcases hvalue.canonical with h | h
    · exact .inl h
    · refine .inr ⟨⟨value.splitOn slash, List.splitOn_ne_nil slash value,
        (List.intercalate_splitOn slash).symm, ?_⟩, h.noBackslash, ?_, ?_⟩
      · intro segment hsegment
        obtain ⟨hempty, hdot, hparent⟩ := h.segments segment hsegment
        exact ⟨hempty, hdot, hparent, notMem_of_mem_splitOn hsegment⟩
      · have hcontrol := h.noControl
        rw [← any_isControl_runes, List.any_eq_false] at hcontrol
        simpa using hcontrol
      · rintro c rest rfl
        simpa [hasWindowsVolume] using h.noVolume
  · intro value hvalue hne
    exact (hvalue.canonical.resolve_left hne).normalizePath_eq
  · intro a b p q ha hb
    exact normalizePath_eq_iff ha hb

/-- A string with a dot, a backslash and bytes that are not UTF-8. -/
theorem paths_canonical_at :
    let raw : Str := Str.lit "./a\\b//" ++ [0xff]
    let value : Str := Str.lit "a/b/" ++ [0xff]
    Obtainable value ∧ normalizePath value = .ok value ∧
      (value = value ↔ segmentsOf raw = segmentsOf value) := by
  intro raw value
  have hraw : normalizePath raw = .ok value := by decide
  have hvalue := paths_canonical.2.1 value (.parse hraw) (by decide)
  exact ⟨.parse hraw, hvalue, paths_canonical.2.2 raw value value value hraw hvalue⟩

end GoFilesystem
