import GoFilesystem.Go.Str

/-!
# Matching text in any case

The regular expression `(?i)name` of Go, for a name of ASCII characters.  A rune
matches a letter if they are the same up to simple case folding, so that `U+017F`
matches an `s` and `U+212A`, the Kelvin sign, a `k`.  The leftmost match is looked
for rune by rune (`findRune`).

On bytes this is simpler.  What matches a name is one of its spellings (`Spelt`), and
since no spelling begins with a continuation byte, a spelling at any byte is found
(`findRune_eq`).  A byte that is in no spelling separates the text: nothing matches
across it (`IsFolded.indexFold_append_cons`).
-/

namespace GoFilesystem.Go

/-! ## Runes up to case -/

/-- The ASCII rune that a rune is the same as up to simple case folding, if there is
one, the small one of two letters. -/
def foldRune (r : Nat) : Nat :=
  if 0x41 ≤ r ∧ r ≤ 0x5a then r + 0x20
  else if r = 0x17f then 0x73
  else if r = 0x212a then 0x6b
  else r

/-- Whether a text begins with a match of `(?i)name`. -/
def matchFold : Str → Str → Bool
  | [], _ => true
  | _ :: _, [] => false
  | c :: name, b :: s =>
    foldRune (decodeRune b s).1 == c.toNat && matchFold name (s.drop (decodeRune b s).2)

/-- Where the first rune begins at which a text matches, `skip` bytes ahead. -/
def findRuneFrom (begins : Str → Bool) : Nat → Str → Option Nat
  | _, [] => none
  | skip + 1, _ :: s => (findRuneFrom begins skip s).map (· + 1)
  | 0, b :: s =>
    if begins (b :: s) then some 0 else (findRuneFrom begins (decodeRune b s).2 s).map (· + 1)

/-- Where the first rune begins at which a text matches. -/
def findRune (begins : Str → Bool) (s : Str) : Option Nat := findRuneFrom begins 0 s

/-- `indexFold`: where the leftmost match of `(?i)name` begins. -/
def indexFold (name s : Str) : Option Nat := findRune (matchFold name) s

/-! ## Spellings -/

/-- A name of ASCII characters in some mixture of cases. -/
inductive Spelt : Str → Str → Prop
  | nil : Spelt [] []
  | ascii {c b : UInt8} {name w : Str} (hb : b < 0x80) (hc : foldRune b.toNat = c.toNat)
      (h : Spelt name w) : Spelt (c :: name) (b :: w)
  | longS {name w : Str} (h : Spelt name w) : Spelt (0x73 :: name) (0xc5 :: 0xbf :: w)
  | kelvin {name w : Str} (h : Spelt name w) : Spelt (0x6b :: name) (0xe2 :: 0x84 :: 0xaa :: w)

def IsAscii (name : Str) : Prop := ∀ c ∈ name, c < 0x80

instance (name : Str) : Decidable (IsAscii name) := inferInstanceAs (Decidable (∀ c ∈ name, _))

theorem of_foldRune_lt {r : Nat} (h : foldRune r < 0x80) :
    r < 0x80 ∨ (r = 0x17f ∧ foldRune r = 0x73) ∨ (r = 0x212a ∧ foldRune r = 0x6b) := by
  unfold foldRune at h ⊢
  split_ifs at h ⊢ <;> omega

/-- A rune that an ASCII character can match is that character, or one of the two
letters beyond ASCII. -/
theorem decodeRune_cases {b : UInt8} {s : Str}
    (h : (decodeRune b s).1 < 0x80 ∨ (decodeRune b s).1 = 0x17f ∨ (decodeRune b s).1 = 0x212a) :
    (b < 0x80 ∧ decodeRune b s = (b.toNat, 0)) ∨
      (∃ t, b = 0xc5 ∧ s = 0xbf :: t ∧ decodeRune b s = (0x17f, 1)) ∨
      ∃ t, b = 0xe2 ∧ s = 0x84 :: 0xaa :: t ∧ decodeRune b s = (0x212a, 2) := by
  unfold decodeRune at h ⊢
  split at h
  · next hb => exact .inl ⟨hb, if_pos hb⟩
  · next hb =>
      rw [if_neg hb]
      split at h
      · next lo hi b₁ t hl =>
          obtain ⟨h₀, -, -, h₂, -⟩ := leadInfo_eq_some hl
          obtain ⟨h₁, rfl, rfl⟩ := h₂ rfl
          split at h
          · next hx =>
              simp only [UInt8.le_iff_toNat_le] at hx
              simp at hx h
              have hb : b = 0xc5 := UInt8.toNat_inj.mp (by simp; omega)
              have hb₁ : b₁ = 0xbf := UInt8.toNat_inj.mp (by simp; omega)
              subst hb hb₁
              exact .inr (.inl ⟨t, rfl, rfl, rfl⟩)
          · simp [runeError] at h
      · next lo hi b₁ b₂ t hl =>
          obtain ⟨h₀, hlo, hhi, -, h₃, -⟩ := leadInfo_eq_some hl
          obtain ⟨h₁, h₂, h₄⟩ := h₃ rfl
          split at h
          · next hvalid =>
              have hx := hvalid
              simp only [isContinuation, UInt8.le_iff_toNat_le, Bool.and_eq_true,
                decide_eq_true_eq] at hx
              simp at hx h
              have hb : b = 0xe2 := UInt8.toNat_inj.mp (by simp; omega)
              have hb₁ : b₁ = 0x84 := UInt8.toNat_inj.mp (by simp; omega)
              have hb₂ : b₂ = 0xaa := UInt8.toNat_inj.mp (by simp; omega)
              subst hb hb₁ hb₂
              exact .inr (.inr ⟨t, rfl, rfl, if_pos hvalid⟩)
          · simp [runeError] at h
      · next lo hi b₁ b₂ b₃ t hl =>
          obtain ⟨h₀, hlo, hhi, -, -, h₃⟩ := leadInfo_eq_some hl
          obtain ⟨h₁, h₂, h₄⟩ := h₃ rfl
          split at h
          · next hx =>
              simp only [isContinuation, UInt8.le_iff_toNat_le, Bool.and_eq_true,
                decide_eq_true_eq] at hx
              simp at hx h
              omega
          · simp [runeError] at h
      · simp [runeError] at h

/-- The runes that match an ASCII character, as bytes. -/
theorem of_foldRune_decodeRune {b c : UInt8} {s : Str} (hc : c < 0x80)
    (h : foldRune (decodeRune b s).1 = c.toNat) :
    (b < 0x80 ∧ (decodeRune b s).2 = 0 ∧ foldRune b.toNat = c.toNat) ∨
      (∃ t, b = 0xc5 ∧ s = 0xbf :: t ∧ (decodeRune b s).2 = 1 ∧ c = 0x73) ∨
      ∃ t, b = 0xe2 ∧ s = 0x84 :: 0xaa :: t ∧ (decodeRune b s).2 = 2 ∧ c = 0x6b := by
  have hlt : foldRune (decodeRune b s).1 < 0x80 := h ▸ UInt8.lt_iff_toNat_lt.mp hc
  have hcases := of_foldRune_lt hlt
  rcases decodeRune_cases (hcases.imp_right (Or.imp And.left And.left)) with
    ⟨hb, hr⟩ | ⟨t, rfl, rfl, hr⟩ | ⟨t, rfl, rfl, hr⟩
  · rw [hr] at h ⊢
    exact .inl ⟨hb, rfl, h⟩
  · rw [hr] at h ⊢
    exact .inr (.inl ⟨t, rfl, rfl, rfl, UInt8.toNat_inj.mp h.symm⟩)
  · rw [hr] at h ⊢
    exact .inr (.inr ⟨t, rfl, rfl, rfl, UInt8.toNat_inj.mp h.symm⟩)

theorem decodeRune_ascii {b : UInt8} (hb : b < 0x80) (s : Str) :
    decodeRune b s = (b.toNat, 0) := if_pos hb

/-- What matches a name is one of its spellings. -/
theorem matchFold_iff {name s : Str} (hname : IsAscii name) :
    matchFold name s = true ↔ ∃ w, Spelt name w ∧ w <+: s := by
  constructor
  · intro h
    induction name generalizing s with
    | nil => exact ⟨[], .nil, List.nil_prefix⟩
    | cons c name ih =>
        cases s with
        | nil => cases h
        | cons b s =>
            obtain ⟨hfold, hrest⟩ := Bool.and_eq_true_iff.mp h
            obtain ⟨w, hw, hbegin⟩ := ih (fun x hx ↦ hname x (List.mem_cons_of_mem c hx)) hrest
            rcases of_foldRune_decodeRune (hname c List.mem_cons_self) (eq_of_beq hfold) with
              ⟨hb, hwidth, hc⟩ | ⟨t, rfl, rfl, hwidth, rfl⟩ | ⟨t, rfl, rfl, hwidth, rfl⟩
            · rw [hwidth] at hbegin
              exact ⟨b :: w, .ascii hb hc hw, List.cons_prefix_cons.mpr ⟨rfl, hbegin⟩⟩
            · rw [hwidth] at hbegin
              exact ⟨_, .longS hw, (List.prefix_append_right_inj [0xc5, 0xbf]).mpr hbegin⟩
            · rw [hwidth] at hbegin
              exact ⟨_, .kelvin hw, (List.prefix_append_right_inj [0xe2, 0x84, 0xaa]).mpr hbegin⟩
  · rintro ⟨w, hw, rest, rfl⟩
    induction hw with
    | nil => rfl
    | @ascii c b name w hb hc hw ih =>
        rw [List.cons_append, matchFold, decodeRune_ascii hb, hc, beq_self_eq_true, Bool.true_and]
        exact ih fun x hx ↦ hname x (List.mem_cons_of_mem c hx)
    | longS hw ih => exact ih fun x hx ↦ hname x (List.mem_cons_of_mem _ hx)
    | kelvin hw ih => exact ih fun x hx ↦ hname x (List.mem_cons_of_mem _ hx)

/-- An ASCII byte of a spelling is a character of the name, up to case. -/
theorem Spelt.mem {name w : Str} (h : Spelt name w) {b : UInt8} (hb : b < 0x80) (hmem : b ∈ w) :
    ∃ c ∈ name, foldRune b.toNat = c.toNat := by
  induction h with
  | nil => cases hmem
  | @ascii c b' name w hb' hc _ ih =>
      rcases List.mem_cons.mp hmem with rfl | hmem
      · exact ⟨c, List.mem_cons_self, hc⟩
      · obtain ⟨c', hc', heq⟩ := ih hmem
        exact ⟨c', List.mem_cons_of_mem c hc', heq⟩
  | longS _ ih =>
      rcases List.mem_cons.mp hmem with rfl | hmem
      · exact absurd hb (by decide)
      rcases List.mem_cons.mp hmem with rfl | hmem
      · exact absurd hb (by decide)
      obtain ⟨c', hc', heq⟩ := ih hmem
      exact ⟨c', List.mem_cons_of_mem _ hc', heq⟩
  | kelvin _ ih =>
      rcases List.mem_cons.mp hmem with rfl | hmem
      · exact absurd hb (by decide)
      rcases List.mem_cons.mp hmem with rfl | hmem
      · exact absurd hb (by decide)
      rcases List.mem_cons.mp hmem with rfl | hmem
      · exact absurd hb (by decide)
      obtain ⟨c', hc', heq⟩ := ih hmem
      exact ⟨c', List.mem_cons_of_mem _ hc', heq⟩

/-! ## The leftmost match -/

/-- Nothing matches at a continuation byte. -/
def AtRunes (begins : Str → Bool) : Prop :=
  ∀ b s, isContinuation b = true → begins (b :: s) = false

theorem atRunes_matchFold {name : Str} (hname : IsAscii name) (hne : name ≠ []) :
    AtRunes (matchFold name) := by
  intro b s hb
  rw [← Bool.not_eq_true, matchFold_iff hname]
  rintro ⟨w, hw, hbegin⟩
  cases hw with
  | nil => exact hne rfl
  | ascii hb' =>
      obtain ⟨rfl, -⟩ := List.cons_prefix_cons.mp hbegin
      have hle := of_decide_eq_true (Bool.and_eq_true_iff.mp hb).1
      exact absurd hb' (not_lt.mpr hle)
  | longS =>
      obtain ⟨rfl, -⟩ := List.cons_prefix_cons.mp hbegin
      exact absurd hb (by decide)
  | kelvin =>
      obtain ⟨rfl, -⟩ := List.cons_prefix_cons.mp hbegin
      exact absurd hb (by decide)

def findByte (begins : Str → Bool) : Str → Option Nat
  | [] => none
  | b :: s => if begins (b :: s) then some 0 else (findByte begins s).map (· + 1)

section Find

variable {begins : Str → Bool} {s t : Str} {i : Nat}

theorem findRuneFrom_eq (hbegins : AtRunes begins) {skip : Nat}
    (hskip : ∀ b ∈ s.take skip, isContinuation b = true) :
    findRuneFrom begins skip s = findByte begins s := by
  induction s generalizing skip with
  | nil => cases skip <;> rfl
  | cons b s ih =>
      cases skip with
      | succ skip =>
          have hb : begins (b :: s) = false := hbegins b s (hskip b List.mem_cons_self)
          rw [findRuneFrom, findByte, hb, ih fun c hc ↦ hskip c (List.mem_cons_of_mem b hc)]
          rfl
      | zero =>
          rw [findRuneFrom, findByte, ih fun c hc ↦ isContinuation_of_mem_take_decodeRune hc]

/-- No byte is missed by going from rune to rune. -/
theorem findRune_eq (hbegins : AtRunes begins) (s : Str) : findRune begins s = findByte begins s :=
  findRuneFrom_eq hbegins nofun

/-- A text matches at the place that is found. -/
theorem of_findRuneFrom_eq_some {skip : Nat} (h : findRuneFrom begins skip s = some i) :
    i < s.length ∧ begins (s.drop i) = true := by
  induction s generalizing skip i with
  | nil => cases skip <;> cases h
  | cons b s ih =>
      have hnext {skip : Nat} (h : (findRuneFrom begins skip s).map (· + 1) = some i) :
          i < (b :: s).length ∧ begins ((b :: s).drop i) = true := by
        obtain ⟨j, hj, rfl⟩ := Option.map_eq_some_iff.mp h
        exact (ih hj).imp_left Nat.succ_lt_succ
      cases skip with
      | succ skip => exact hnext h
      | zero =>
          rw [findRuneFrom] at h
          split at h
          · next hb =>
              cases h
              exact ⟨Nat.zero_lt_succ _, hb⟩
          · exact hnext h

/-- A text that matches still does when it goes on. -/
def Extends (begins : Str → Bool) : Prop :=
  ∀ s t, begins s = true → begins (s ++ t) = true

theorem findByte_eq_none_of_append (hbegins : Extends begins)
    (h : findByte begins (s ++ t) = none) : findByte begins s = none := by
  induction s with
  | nil => rfl
  | cons b s ih =>
      rw [List.cons_append, findByte] at h
      split at h
      · cases h
      · next hb =>
          rw [findByte, if_neg fun htrue ↦ hb (hbegins (b :: s) t htrue),
            ih (Option.map_eq_none_iff.mp h)]
          rfl

/-- Nothing matches before the first match. -/
theorem findByte_take (hbegins : Extends begins) (h : findByte begins s = some i) :
    findByte begins (s.take i) = none := by
  induction s generalizing i with
  | nil => cases h
  | cons b s ih =>
      rw [findByte] at h
      split at h
      · cases h
        rfl
      · next hb =>
          obtain ⟨j, hj, rfl⟩ := Option.map_eq_some_iff.mp h
          have hb' : ¬ begins (b :: s.take j) = true := by
            intro htrue
            refine hb ?_
            have hext := hbegins (b :: s.take j) (s.drop j) htrue
            rwa [List.cons_append, List.take_append_drop] at hext
          rw [List.take_succ_cons, findByte, if_neg hb', ih hj]
          rfl

end Find

section Index

variable {name s t : Str} {i : Nat}

theorem extends_matchFold (hname : IsAscii name) : Extends (matchFold name) := by
  intro s t h
  obtain ⟨w, hw, hbegin⟩ := (matchFold_iff hname).mp h
  exact (matchFold_iff hname).mpr ⟨w, hw, hbegin.trans (List.prefix_append s t)⟩

/-- A name that a text can be searched for. -/
structure IsFolded (name : Str) : Prop where
  ascii : IsAscii name
  ne_nil : name ≠ []

instance (name : Str) : Decidable (IsFolded name) :=
  decidable_of_iff (IsAscii name ∧ name ≠ []) ⟨fun h ↦ ⟨h.1, h.2⟩, fun h ↦ ⟨h.1, h.2⟩⟩

theorem IsFolded.indexFold_eq (h : IsFolded name) (s : Str) :
    indexFold name s = findByte (matchFold name) s :=
  findRune_eq (atRunes_matchFold h.ascii h.ne_nil) s

theorem lt_of_indexFold_eq_some (hs : indexFold name s = some i) : i < s.length :=
  (of_findRuneFrom_eq_some hs).1

theorem IsFolded.indexFold_eq_none_of_append (h : IsFolded name)
    (hs : indexFold name (s ++ t) = none) : indexFold name s = none := by
  rw [h.indexFold_eq] at hs ⊢
  exact findByte_eq_none_of_append (extends_matchFold h.ascii) hs

theorem IsFolded.indexFold_take (h : IsFolded name) (hs : indexFold name s = some i) :
    indexFold name (s.take i) = none := by
  rw [h.indexFold_eq] at hs ⊢
  exact findByte_take (extends_matchFold h.ascii) hs

end Index

/-! ## Separators -/

/-- No spelling of the name has the byte. -/
def Separates (sep : UInt8) (name : Str) : Prop :=
  sep < 0x80 ∧ ∀ c ∈ name, foldRune sep.toNat ≠ c.toNat

instance (sep : UInt8) (name : Str) : Decidable (Separates sep name) :=
  inferInstanceAs (Decidable (_ ∧ ∀ c ∈ name, _))

section Separators

variable {sep : UInt8} {name a b : Str}

theorem Separates.notMem {w : Str} (h : Separates sep name) (hw : Spelt name w) : sep ∉ w := by
  intro hmem
  obtain ⟨c, hc, heq⟩ := hw.mem h.1 hmem
  exact h.2 c hc heq

/-- No match goes beyond a separator. -/
theorem Separates.matchFold_append_cons (h : Separates sep name) (hname : IsAscii name)
    (a b : Str) : matchFold name (a ++ sep :: b) = matchFold name a := by
  rw [Bool.eq_iff_iff, matchFold_iff hname, matchFold_iff hname]
  refine exists_congr fun w ↦ and_congr_right fun hw ↦ ⟨fun hbegin ↦ ?_, fun hbegin ↦ ?_⟩
  · have hsep : a ++ [sep] <+: a ++ sep :: b := (List.prefix_append_right_inj a).mpr ⟨b, rfl⟩
    rcases List.prefix_or_prefix_of_prefix hbegin hsep with hle | hle
    · rcases List.prefix_concat_iff.mp hle with rfl | hle
      · exact absurd (by simp) (h.notMem hw)
      · exact hle
    · exact absurd (hle.subset (by simp)) (h.notMem hw)
  · exact hbegin.trans (List.prefix_append a _)

/-- The first match is before the separator, or else after it. -/
theorem IsFolded.indexFold_append_cons (hname : IsFolded name) (h : Separates sep name)
    (a b : Str) :
    indexFold name (a ++ sep :: b) =
      (indexFold name a).or ((indexFold name b).map (a.length + 1 + ·)) := by
  simp only [hname.indexFold_eq]
  induction a with
  | nil =>
      have hsep : ¬ matchFold name (sep :: b) = true := by
        rw [← List.nil_append (sep :: b), h.matchFold_append_cons hname.ascii]
        obtain ⟨c, name', rfl⟩ := List.exists_cons_of_ne_nil hname.ne_nil
        exact Bool.false_ne_true
      simp only [List.nil_append, findByte, if_neg hsep, Option.none_or, List.length_nil,
        Nat.zero_add, Nat.add_comm]
  | cons x a ih =>
      rw [List.cons_append, findByte, findByte, ← List.cons_append,
        h.matchFold_append_cons hname.ascii]
      split
      · rfl
      · rw [ih, Option.map_or, Option.map_map]
        congr 2
        funext k
        simp only [Function.comp_apply, List.length_cons]
        omega

end Separators

end GoFilesystem.Go
