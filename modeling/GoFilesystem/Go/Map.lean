import Mathlib.Data.Finmap
import Mathlib.Data.Finset.Sort

/-!
# Go maps

A Go map is a finite map, and ranging over it visits its keys in an order the
language leaves open.  `IterOrder` is one resolution of that choice: for each
finite set of keys, a list of exactly those keys.  `KeyOrder` is a resolution
that follows one fixed order on keys, so that the visit of a smaller map is
what remains of the visit of a larger one.
-/

namespace GoFilesystem.Go

universe u v

abbrev GoMap (α : Type u) (β : Type v) := Finmap fun _ : α ↦ β

/-- One way to order the keys of every map. -/
structure IterOrder (α : Type u) where
  enum : Finset α → List α
  nodup : ∀ keys, (enum keys).Nodup
  mem_enum : ∀ keys a, a ∈ enum keys ↔ a ∈ keys

/-- An iteration order that follows one fixed order on keys. -/
structure KeyOrder (α : Type u) extends IterOrder α where
  enum_filter : ∀ keys (p : α → Prop) [DecidablePred p],
    enum (keys.filter p) = (enum keys).filter p

def KeyOrder.increasing (α : Type u) [LinearOrder α] : KeyOrder α where
  enum keys := keys.sort (· ≤ ·)
  nodup keys := keys.sort_nodup _
  mem_enum keys a := Finset.mem_sort _
  enum_filter keys p _ := by
    have hs : ((keys.filter p).sort (· ≤ ·)).Pairwise (· ≤ ·) := Finset.pairwise_sort _ _
    refine List.Perm.eq_of_pairwise (fun _ _ _ _ ↦ le_antisymm) hs
      ((Finset.pairwise_sort _ _).filter _) ?_
    refine (List.perm_ext_iff_of_nodup (Finset.sort_nodup _ _)
      ((Finset.sort_nodup _ _).filter _)).mpr fun a ↦ ?_
    simp

def IterOrder.reverse {α : Type u} (order : IterOrder α) : IterOrder α where
  enum keys := (order.enum keys).reverse
  nodup keys := List.nodup_reverse.mpr (order.nodup keys)
  mem_enum keys a := by rw [List.mem_reverse, order.mem_enum]

/-- Sorting commutes with a renaming that keeps the order. -/
theorem sort_image {α γ : Type u} [LinearOrder α] [LinearOrder γ] [DecidableEq γ] {f : α → γ}
    (hf : StrictMono f) (keys : Finset α) :
    (keys.image f).sort (· ≤ ·) = (keys.sort (· ≤ ·)).map f := by
  refine List.Perm.eq_of_pairwise (fun _ _ _ _ ↦ le_antisymm) (Finset.pairwise_sort _ _) ?_ ?_
  · exact List.pairwise_map.mpr ((Finset.pairwise_sort keys (· ≤ ·)).imp fun h ↦ hf.monotone h)
  · refine (List.perm_ext_iff_of_nodup (Finset.sort_nodup _ _)
      ((Finset.sort_nodup _ _).map hf.injective)).mpr fun a ↦ ?_
    simp

namespace GoMap

variable {α : Type u} {β : Type v} [DecidableEq α]

/-- Ranging over a map: the pairs in the order of their keys. -/
def range (order : IterOrder α) (m : GoMap α β) : List (α × β) :=
  (order.enum m.keys).filterMap fun a ↦ (m.lookup a).map fun b ↦ (a, b)

theorem mem_range {order : IterOrder α} {m : GoMap α β} {a : α} {b : β} :
    (a, b) ∈ range order m ↔ m.lookup a = some b := by
  unfold range
  rw [List.mem_filterMap]
  constructor
  · rintro ⟨a', -, h⟩
    obtain ⟨b', hb, heq⟩ := Option.map_eq_some_iff.mp h
    simp only [Prod.mk.injEq] at heq
    obtain ⟨rfl, rfl⟩ := heq
    exact hb
  · intro h
    refine ⟨a, (order.mem_enum _ _).mpr ?_, by rw [h]; rfl⟩
    rw [Finmap.mem_keys, ← Finmap.lookup_isSome, h]
    rfl

theorem range_reverse (order : IterOrder α) (m : GoMap α β) :
    range order.reverse m = (range order m).reverse := by
  unfold range IterOrder.reverse
  rw [List.filterMap_reverse]

/-- In increasing order of keys the pairs are visited in increasing order. -/
theorem pairwise_range_increasing [LinearOrder α] (m : GoMap α β) :
    (range (KeyOrder.increasing α).toIterOrder m).Pairwise fun p q ↦ p.1 < q.1 := by
  unfold range KeyOrder.increasing
  refine (List.pairwise_filterMap ..).mpr ?_
  refine (Finset.sortedLT_sort _).pairwise.imp ?_
  intro a b hab p hp q hq
  obtain ⟨-, -, rfl⟩ := Option.map_eq_some_iff.mp hp
  obtain ⟨-, -, rfl⟩ := Option.map_eq_some_iff.mp hq
  exact hab

/-! A map built by assignments holds under each key what was assigned last. -/

section InsertAll

/-- Assigning the pairs of a list one after another. -/
def insertAll (pairs : List (α × β)) (m : GoMap α β) : GoMap α β :=
  pairs.foldl (fun m p ↦ m.insert p.1 p.2) m

theorem insertAll_concat (pairs : List (α × β)) (p : α × β) (m : GoMap α β) :
    insertAll (pairs ++ [p]) m = (insertAll pairs m).insert p.1 p.2 := by
  unfold insertAll
  rw [List.foldl_append]
  rfl

variable {pairs : List (α × β)}

theorem lookup_insertAll_eq_some {a : α} {b : β} :
    (insertAll pairs ∅).lookup a = some b ↔
      ∃ before after, pairs = before ++ (a, b) :: after ∧ ∀ p ∈ after, p.1 ≠ a := by
  induction pairs using List.reverseRecOn with
  | nil =>
      simp [insertAll]
  | append_singleton pairs p ih =>
      rw [insertAll_concat]
      by_cases heq : a = p.1
      · subst heq
        rw [Finmap.lookup_insert]
        constructor
        · intro h
          cases h
          exact ⟨pairs, [], rfl, nofun⟩
        · rintro ⟨before, after, happend, hafter⟩
          rcases List.eq_nil_or_concat after with rfl | ⟨after, q, rfl⟩
          · obtain ⟨-, hp⟩ := List.append_inj' happend rfl
            rw [List.singleton_inj.mp hp]
          · rw [List.concat_eq_append, ← List.cons_append, ← List.append_assoc] at happend
            obtain ⟨-, hp⟩ := List.append_inj' happend rfl
            rw [List.singleton_inj.mp hp] at hafter
            exact absurd rfl (hafter q (by simp))
      · rw [Finmap.lookup_insert_of_ne _ heq, ih]
        constructor
        · rintro ⟨before, after, rfl, hafter⟩
          refine ⟨before, after ++ [p], by simp, fun q hq ↦ ?_⟩
          rcases List.mem_append.mp hq with hq | hq
          · exact hafter q hq
          · rw [List.mem_singleton.mp hq]
            exact Ne.symm heq
        · rintro ⟨before, after, happend, hafter⟩
          rcases List.eq_nil_or_concat after with rfl | ⟨after, q, rfl⟩
          · obtain ⟨-, hp⟩ := List.append_inj' happend rfl
            rw [List.singleton_inj.mp hp] at heq
            exact absurd rfl heq
          · rw [List.concat_eq_append, ← List.cons_append, ← List.append_assoc] at happend
            obtain ⟨hpairs, -⟩ := List.append_inj' happend rfl
            exact ⟨before, after, hpairs, fun p hp ↦ hafter p (by simp [hp])⟩

theorem mem_of_lookup_insertAll {a : α} {b : β} (h : (insertAll pairs ∅).lookup a = some b) :
    (a, b) ∈ pairs := by
  obtain ⟨before, after, rfl, -⟩ := lookup_insertAll_eq_some.mp h
  simp

theorem mem_insertAll {a : α} : a ∈ insertAll pairs ∅ ↔ ∃ b, (a, b) ∈ pairs := by
  induction pairs using List.reverseRecOn with
  | nil => simp [insertAll, Finmap.notMem_empty]
  | append_singleton pairs p ih =>
      rw [insertAll_concat, Finmap.mem_insert, ih]
      obtain ⟨a', b'⟩ := p
      simp only [List.mem_append, List.mem_singleton, Prod.mk.injEq, exists_or]
      simp [or_comm]

/-- Renaming the keys one-to-one renames the map. -/
theorem lookup_insertAll_map {γ : Type u} {δ : Type v} [DecidableEq γ] {f : α → γ}
    (hf : Function.Injective f) (g : β → δ) (pairs : List (α × β)) (a : α) :
    (insertAll (pairs.map (Prod.map f g)) ∅).lookup (f a) =
      ((insertAll pairs ∅).lookup a).map g := by
  induction pairs using List.reverseRecOn with
  | nil => rfl
  | append_singleton pairs p ih =>
      rw [List.map_append, List.map_singleton, insertAll_concat, insertAll_concat]
      by_cases heq : a = p.1
      · rw [heq, Prod.map_fst, Finmap.lookup_insert, Finmap.lookup_insert]
        rfl
      · rw [Finmap.lookup_insert_of_ne _ heq, Prod.map_fst,
          Finmap.lookup_insert_of_ne _ (hf.ne heq), ih]

theorem keys_insertAll_map {γ : Type u} {δ : Type v} [DecidableEq γ] (f : α → γ) (g : β → δ)
    (pairs : List (α × β)) :
    (insertAll (pairs.map (Prod.map f g)) ∅).keys = (insertAll pairs ∅).keys.image f := by
  ext c
  simp only [Finmap.mem_keys, mem_insertAll, Finset.mem_image, List.mem_map, Prod.exists,
    Prod.map_apply, Prod.mk.injEq]
  constructor
  · rintro ⟨_, a, b, hmem, rfl, rfl⟩
    exact ⟨a, ⟨b, hmem⟩, rfl⟩
  · rintro ⟨a, ⟨b, hmem⟩, rfl⟩
    exact ⟨g b, a, b, hmem, rfl, rfl⟩

end InsertAll

/-! Two maps that agree up to `f` are visited alike. -/

section Congr

variable {γ : Type*} {f : β → γ} {m m' : GoMap α β}

theorem mem_keys_congr {a : α} (h : (m.lookup a).map f = (m'.lookup a).map f) :
    a ∈ m.keys ↔ a ∈ m'.keys := by
  have hsome := congrArg Option.isSome h
  simp only [Option.isSome_map] at hsome
  rw [Finmap.mem_keys, Finmap.mem_keys, ← Finmap.lookup_isSome, ← Finmap.lookup_isSome, hsome]

theorem pairs_congr {keys : List α}
    (h : ∀ a ∈ keys, (m.lookup a).map f = (m'.lookup a).map f) :
    (keys.filterMap fun a ↦ (m.lookup a).map fun b ↦ (a, b)).map (Prod.map id f) =
      (keys.filterMap fun a ↦ (m'.lookup a).map fun b ↦ (a, b)).map (Prod.map id f) := by
  rw [List.map_filterMap, List.map_filterMap]
  refine List.filterMap_congr fun a ha ↦ ?_
  have hpair := congrArg (Option.map (Prod.mk a)) (h a ha)
  simpa only [Option.map_map, Function.comp_def, Prod.map_apply, id] using hpair

theorem range_congr (order : IterOrder α) (h : ∀ a, (m.lookup a).map f = (m'.lookup a).map f) :
    (range order m).map (Prod.map id f) = (range order m').map (Prod.map id f) := by
  have hkeys : m.keys = m'.keys := Finset.ext fun a ↦ mem_keys_congr (h a)
  unfold range
  rw [← hkeys]
  exact pairs_congr fun a _ ↦ h a

theorem filter_range (order : KeyOrder α) (m : GoMap α β) (p : α → Prop) [DecidablePred p] :
    (range order.toIterOrder m).filter (fun q ↦ p q.1) =
      (order.enum (m.keys.filter p)).filterMap fun a ↦ (m.lookup a).map fun b ↦ (a, b) := by
  rw [order.enum_filter]
  unfold range
  induction order.enum m.keys with
  | nil => rfl
  | cons a keys ih =>
      by_cases hp : p a
      · cases hl : m.lookup a with
        | none => simpa [List.filterMap_cons, hl, hp] using ih
        | some b => simpa [List.filterMap_cons, hl, hp] using ih
      · cases hl : m.lookup a with
        | none => simpa [List.filterMap_cons, hl, hp] using ih
        | some b => simpa [List.filterMap_cons, hl, hp] using ih

/-- In one fixed order of keys, agreement on some keys is enough for them. -/
theorem filter_range_congr (order : KeyOrder α) (p : α → Prop) [DecidablePred p]
    (h : ∀ a, p a → (m.lookup a).map f = (m'.lookup a).map f) :
    ((range order.toIterOrder m).filter (fun q ↦ p q.1)).map (Prod.map id f) =
      ((range order.toIterOrder m').filter (fun q ↦ p q.1)).map (Prod.map id f) := by
  have hkeys : m.keys.filter p = m'.keys.filter p := by
    ext a
    simp only [Finset.mem_filter]
    exact and_congr_left fun ha ↦ mem_keys_congr (h a ha)
  rw [filter_range, filter_range, hkeys]
  refine pairs_congr fun a ha ↦ h a ?_
  exact (Finset.mem_filter.mp ((order.mem_enum _ _).mp ha)).2

end Congr

end GoMap

end GoFilesystem.Go
