import GoFilesystem.Local.Adapter

/-!
# Directories of paths

The directory of a path, the names that `MkdirAll` makes for it, and the
temporary names in it, by the names above them.
-/

namespace GoFilesystem.Local

open Go Posix

/-- `path.Clean` only drops the slash at the end. -/
theorem clean_append_slash {d : Str} (h : NormalForm d) : PathName.clean (d ++ [slash]) = d := by
  refine clean_eq_of_kept ?_ ?_
  · rw [List.head?_append_of_ne_nil _ h.ne_nil]
    exact h.head_ne
  · rw [List.splitOn_append_cons_self, List.foldl_append, foldl_cleanElement h.segments]
    simp [PathName.cleanElement]

/-- The directory of a path: the root, or what comes before the last slash. -/
theorem dir_cases {value : Str} (h : NormalForm value) :
    (slash ∉ value ∧ PathName.dir value = PathName.current) ∨
      ∃ b, slash ∉ b ∧ value = PathName.dir value ++ slash :: b ∧
        PathName.dir value ≠ PathName.current := by
  by_cases hslash : slash ∈ value
  · obtain ⟨b, d, heq, hb⟩ := List.eq_append_cons_of_mem (List.mem_reverse.mpr hslash)
    have hvalue : value = d.reverse ++ slash :: b.reverse := by
      rw [← List.reverse_reverse value, heq]
      simp
    have hd : NormalForm d.reverse := NormalForm.left (hvalue ▸ h)
    have hdir : PathName.dir value = d.reverse := by
      have hdrop : ∀ c ∈ b, decide (c ≠ slash) = true := by
        intro c hc
        exact decide_eq_true fun hslash ↦ hb (hslash ▸ hc)
      unfold PathName.dir
      rw [heq, List.dropWhile_append_of_pos hdrop, List.dropWhile_cons_of_neg (by simp),
        List.reverse_cons]
      exact clean_append_slash hd
    refine .inr ⟨b.reverse, by simpa using hb, hdir.symm ▸ hvalue, ?_⟩
    rw [hdir]
    intro hcurrent
    exact (hd.segments [dot] (by rw [hcurrent]; decide)).2.1 rfl
  · refine .inl ⟨hslash, ?_⟩
    have hdrop : ∀ c ∈ value.reverse, decide (c ≠ slash) = true := by
      intro c hc
      exact decide_eq_true fun heq ↦ hslash (heq ▸ List.mem_reverse.mp hc)
    have hnil : (value.reverse ++ []).dropWhile (· ≠ slash) = [] :=
      List.dropWhile_append_of_pos hdrop
    rw [List.append_nil] at hnil
    unfold PathName.dir
    rw [hnil]
    rfl

/-- The names of `MkdirAll`: a directory and those above it. -/
theorem mem_leadingNames {d x : Str} (h : x ∈ leadingNames (d.splitOn slash)) :
    x = d ∨ x ∈ ancestors d := by
  obtain ⟨i, hi, rfl⟩ := List.mem_map.mp h
  have hjoin : [slash].intercalate (d.splitOn slash) = d := List.intercalate_splitOn slash
  have hlt : i < (d.splitOn slash).length := List.mem_range.mp hi
  by_cases hdrop : (d.splitOn slash).drop (i + 1) = []
  · rw [List.take_of_length_le (List.drop_eq_nil_iff.mp hdrop), hjoin]
    exact .inl rfl
  · have htake : (d.splitOn slash).take (i + 1) ≠ [] := by
      rw [Ne, List.take_eq_nil_iff]
      rintro (hzero | hnil)
      · contradiction
      · exact List.splitOn_ne_nil _ _ hnil
    have hsplit := intercalate_append [slash] htake hdrop
    rw [List.take_append_drop, hjoin, List.append_assoc] at hsplit
    exact .inr (mem_ancestors.mpr ⟨_, hsplit⟩)

/-- The directories that an operation on a path makes are above the path. -/
theorem mem_ancestors_of_mkdir {value x : Str} (h : NormalForm value)
    (hdir : PathName.dir value ≠ PathName.current)
    (hx : x ∈ leadingNames ((PathName.dir value).splitOn slash)) : x ∈ ancestors value := by
  rcases dir_cases h with ⟨-, hcurrent⟩ | ⟨b, -, heq, -⟩
  · exact absurd hcurrent hdir
  · rw [mem_ancestors]
    rcases mem_leadingNames hx with rfl | hx
    · exact ⟨b, heq⟩
    · obtain ⟨c, hc⟩ := mem_ancestors.mp hx
      refine ⟨c ++ slash :: b, heq.trans ?_⟩
      rw [hc]
      simp

/-- A path and a temporary name for it are in the same directory. -/
theorem mem_ancestors_temporaryName {value x : Str} (random : Str) (h : NormalForm value)
    (hx : x ∈ ancestors value) : x ∈ ancestors (temporaryName (PathName.dir value) random) := by
  rcases dir_cases h with ⟨hslash, -⟩ | ⟨b, hb, heq, hdir⟩
  · obtain ⟨b, rfl⟩ := mem_ancestors.mp hx
    simp at hslash
  · rw [heq, ancestors_append_slash hb] at hx
    unfold temporaryName
    rw [if_neg hdir, mem_ancestors]
    rcases hx with hx | rfl
    · obtain ⟨c, hc⟩ := mem_ancestors.mp hx
      refine ⟨c ++ slash :: (Str.lit ".filesystem-" ++ hexEncode random ++ Str.lit ".tmp"), ?_⟩
      nth_rewrite 1 [hc]
      simp
    · exact ⟨_, rfl⟩

theorem temporaryName_ne_nil (directory random : Str) : temporaryName directory random ≠ [] := by
  unfold temporaryName
  dsimp only
  split
  · have hlit : Str.lit ".filesystem-" ≠ [] := by decide
    simp [hlit]
  · simp

end GoFilesystem.Local
