import Mathlib.Data.List.Infix
import Mathlib.Tactic.Common

/-!
# Replacing text

`replaceAll old new s` replaces the occurrences of `old` in `s` by `new`, from left
to right, as `strings.ReplaceAll` does.  A replacement can make text that was not
there before: across its borders, or because it is in `new` itself.  It makes no text
that is `Apart` from `new`, so that no occurrences of the two can overlap.

| lemma | says |
| --- | --- |
| `Clear.replaceAll_append` | a text into which `old` does not reach is kept |
| `not_infix_replaceAll` | no text appears that is apart from `new` |
| `not_infix_replaceAll_self` | `old` is gone if it is apart from `new` |
| `replaceAll_comm` | two replacements of texts that are apart commute |
-/

namespace GoFilesystem.Go.Text

variable {α : Type*}

variable {p q old new s t u v rest : List α} {b : α}

/-- No occurrence of `q` begins inside an occurrence of `p`. -/
def Clear (p q : List α) : Prop := ∀ u, u ≠ [] → u <:+ p → ¬ u <+: q ∧ ¬ q <+: u

instance [DecidableEq α] (p q : List α) : Decidable (Clear p q) :=
  decidable_of_iff (∀ u ∈ p.tails, u ≠ [] → ¬ u <+: q ∧ ¬ q <+: u)
    ⟨fun h u hne hu ↦ h u ((List.mem_tails _ _).mpr hu) hne,
      fun h u hu hne ↦ h u hne ((List.mem_tails _ _).mp hu)⟩

/-- No occurrences of the two texts can overlap. -/
def Apart (p q : List α) : Prop := Clear p q ∧ Clear q p

instance [DecidableEq α] (p q : List α) : Decidable (Apart p q) :=
  inferInstanceAs (Decidable (_ ∧ _))

theorem Clear.suffix (h : Clear p q) (hu : u <:+ p) : Clear u q :=
  fun v hne hv ↦ h v hne (hv.trans hu)

theorem Clear.not_isPrefix (h : Clear p q) (hne : u ≠ []) (hu : u <:+ p) (rest : List α) :
    ¬ q <+: u ++ rest := by
  intro hq
  obtain ⟨huq, hqu⟩ := h u hne hu
  exact (List.prefix_or_prefix_of_prefix (List.prefix_append u rest) hq).elim huq hqu

/-- No occurrence begins inside a text that is clear of it. -/
theorem Clear.infix_of_append (h : Clear p t) (hin : t <:+: p ++ rest) :
    t <:+: rest := by
  induction p with
  | nil => exact hin
  | cons b p ih =>
      rcases List.infix_cons_iff.mp hin with hbegin | hin
      · exact absurd hbegin (h.not_isPrefix (List.cons_ne_nil b p) List.suffix_rfl rest)
      · exact ih (h.suffix (List.suffix_cons b p)) hin

/-! ## Replacing -/

variable [DecidableEq α]

/-- `replaceAll` from the point on that is `skip` elements ahead. -/
def replaceFrom (old new : List α) : Nat → List α → List α
  | _, [] => []
  | skip + 1, _ :: rest => replaceFrom old new skip rest
  | 0, b :: rest =>
    if old <+: b :: rest then new ++ replaceFrom old new (old.length - 1) rest
    else b :: replaceFrom old new 0 rest

/-- Replace the occurrences of `old`, which is not empty, from left to right. -/
def replaceAll (old new s : List α) : List α := replaceFrom old new 0 s

theorem replaceFrom_eq (skip : Nat) (s : List α) :
    replaceFrom old new skip s = replaceAll old new (s.drop skip) := by
  induction s generalizing skip with
  | nil => cases skip <;> rfl
  | cons b rest ih =>
      cases skip with
      | zero => rfl
      | succ skip => exact ih skip

theorem replaceAll_append (hold : old ≠ []) (rest : List α) :
    replaceAll old new (old ++ rest) = new ++ replaceAll old new rest := by
  obtain ⟨b, old', rfl⟩ := List.exists_cons_of_ne_nil hold
  have hbegin : b :: old' <+: b :: (old' ++ rest) := List.prefix_append (b :: old') rest
  rw [List.cons_append]
  refine (if_pos hbegin).trans ?_
  rw [replaceFrom_eq, List.length_cons, Nat.add_sub_cancel, List.drop_left]

theorem replaceAll_cons (h : ¬ old <+: b :: rest) :
    replaceAll old new (b :: rest) = b :: replaceAll old new rest := if_neg h

/-- Induction along a scan for `old`. -/
theorem scan (hold : old ≠ []) {P : List α → Prop} (nil : P [])
    (found : ∀ rest, P rest → P (old ++ rest))
    (other : ∀ b rest, ¬ old <+: b :: rest → P rest → P (b :: rest)) (s : List α) : P s := by
  induction hn : s.length using Nat.strongRecOn generalizing s with
  | _ n ih =>
      cases s with
      | nil => exact nil
      | cons b rest =>
          by_cases h : old <+: b :: rest
          · obtain ⟨rest', heq⟩ := h
            rw [← heq] at hn ⊢
            have hpos := List.length_pos_iff.mpr hold
            rw [List.length_append] at hn
            exact found rest' (ih rest'.length (by omega) rest' rfl)
          · rw [List.length_cons] at hn
            exact other b rest h (ih rest.length (by omega) rest rfl)

/-- A text that is clear of `old` is passed over. -/
theorem Clear.replaceAll_append (h : Clear p old) (rest : List α) :
    replaceAll old new (p ++ rest) = p ++ replaceAll old new rest := by
  induction p with
  | nil => rfl
  | cons b p ih =>
      have hhere := h.not_isPrefix (List.cons_ne_nil b p) List.suffix_rfl rest
      rw [List.cons_append] at hhere ⊢
      rw [replaceAll_cons hhere, ih (h.suffix (List.suffix_cons b p)), List.cons_append]

/-- What a text begins with after the replacement it began with before, if that is
the end of something clear of `new`. -/
theorem Clear.prefix_of_replaceAll (h : Clear t new) (hold : old ≠ []) (hv : v <:+ t)
    (hbegin : v <+: replaceAll old new s) : v <+: s := by
  induction s using scan hold generalizing v with
  | nil => exact hbegin
  | found rest ih =>
      rw [Text.replaceAll_append hold] at hbegin
      rcases eq_or_ne v [] with rfl | hne
      · exact List.nil_prefix
      · obtain ⟨hvnew, hnewv⟩ := h v hne hv
        rcases List.prefix_or_prefix_of_prefix (List.prefix_append new _) hbegin with hle | hle
        · exact absurd hle hnewv
        · exact absurd hle hvnew
  | other b rest hnot ih =>
      rw [replaceAll_cons hnot] at hbegin
      cases v with
      | nil => exact List.nil_prefix
      | cons c v =>
          obtain ⟨rfl, hrest⟩ := List.cons_prefix_cons.mp hbegin
          exact List.cons_prefix_cons.mpr ⟨rfl, ih ((List.suffix_cons c v).trans hv) hrest⟩

/-- A replacement makes no text that is clear of what it inserts. -/
theorem not_infix_replaceAll (h : Apart t new) (hold : old ≠ [])
    (hnot : ¬ t <:+: s) : ¬ t <:+: replaceAll old new s := by
  induction s using scan hold with
  | nil => exact hnot
  | found rest ih =>
      rw [Text.replaceAll_append hold]
      intro hin
      exact ih (fun hrest ↦ hnot (hrest.trans (List.suffix_append old rest).isInfix))
        (h.2.infix_of_append hin)
  | other b rest hother ih =>
      intro hin
      have hrest : ¬ t <:+: rest := fun hrest ↦ hnot (hrest.trans (List.suffix_cons b rest).isInfix)
      rw [replaceAll_cons hother] at hin
      rcases List.infix_cons_iff.mp hin with hbegin | hin
      · rw [← replaceAll_cons hother] at hbegin
        exact hnot (h.1.prefix_of_replaceAll hold List.suffix_rfl hbegin).isInfix
      · exact ih hrest hin

/-- What is replaced is gone, if it is clear of what it is replaced by. -/
theorem not_infix_replaceAll_self (hold : old ≠ []) (h : Apart old new) :
    ¬ old <:+: replaceAll old new s := by
  induction s using scan hold with
  | nil => exact fun hin ↦ hold (List.infix_nil.mp hin)
  | found rest ih =>
      rw [Text.replaceAll_append hold]
      exact fun hin ↦ ih (h.2.infix_of_append hin)
  | other b rest hnot ih =>
      intro hin
      rw [replaceAll_cons hnot] at hin
      rcases List.infix_cons_iff.mp hin with hbegin | hin
      · rw [← replaceAll_cons hnot] at hbegin
        exact hnot (h.1.prefix_of_replaceAll hold List.suffix_rfl hbegin)
      · exact ih hin

/-- Two replacements by the same text commute, if the three are clear of each other. -/
theorem replaceAll_comm (hp : p ≠ []) (hq : q ≠ []) (hpq : Apart p q) (hpnew : Apart p new)
    (hqnew : Apart q new) (s : List α) :
    replaceAll q new (replaceAll p new s) = replaceAll p new (replaceAll q new s) := by
  induction hn : s.length using Nat.strongRecOn generalizing s with
  | _ n ih =>
      by_cases hps : p <+: s
      · obtain ⟨rest, rfl⟩ := hps
        have hpos := List.length_pos_iff.mpr hp
        rw [List.length_append] at hn
        rw [Text.replaceAll_append hp, hqnew.2.replaceAll_append, hpq.1.replaceAll_append,
          Text.replaceAll_append hp, ih rest.length (by omega) rest rfl]
      · by_cases hqs : q <+: s
        · obtain ⟨rest, rfl⟩ := hqs
          have hpos := List.length_pos_iff.mpr hq
          rw [List.length_append] at hn
          rw [hpq.2.replaceAll_append, Text.replaceAll_append hq, Text.replaceAll_append hq,
            hpnew.2.replaceAll_append, ih rest.length (by omega) rest rfl]
        · cases s with
          | nil => rfl
          | cons b rest =>
              rw [List.length_cons] at hn
              -- neither replacement makes an occurrence of the other here
              have hq' : ¬ q <+: b :: replaceAll p new rest := by
                rw [← replaceAll_cons hps]
                exact fun h ↦ hqs (hqnew.1.prefix_of_replaceAll hp List.suffix_rfl h)
              have hp' : ¬ p <+: b :: replaceAll q new rest := by
                rw [← replaceAll_cons hqs]
                exact fun h ↦ hps (hpnew.1.prefix_of_replaceAll hq List.suffix_rfl h)
              rw [replaceAll_cons hps, replaceAll_cons hqs, replaceAll_cons hq',
                replaceAll_cons hp', ih rest.length (by omega) rest rfl]

end GoFilesystem.Go.Text
