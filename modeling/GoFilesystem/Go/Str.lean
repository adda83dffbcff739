import Mathlib.Data.List.Lex
import Mathlib.Data.UInt
import Mathlib.Tactic.Common
import Mathlib.Tactic.Push

/-!
# Go strings

A Go string is an arbitrary sequence of bytes: nothing forces it to be valid
UTF-8.  `Str` is therefore a list of bytes, and the functions of the `strings`
package that the repository uses are list functions, most of them already in
the standard library: `Split` at one byte is `List.splitOn`, `Join` is
`List.intercalate`, `HasPrefix` is `List.isPrefixOf`, `Compare` is the
lexicographic order.

Ranging over a string decodes UTF-8, an invalid byte giving `U+FFFD` and a
width of one.  `decodeRune` follows the table of package `unicode/utf8`.  The
only question the repository asks about runes is whether one of them is a
control character, and `any_isControl_runes` answers it without decoding: a
control rune is an ASCII control byte or the pair `C2 80 … C2 9F`.  That makes
the question local, so that it splits at every slash
(`hasControlByte_append_cons`).
-/

namespace GoFilesystem.Go

/-- A Go string, or a slice of bytes. -/
abbrev Str := List UInt8

def Str.lit (s : String) : Str := s.toUTF8.data.toList

/-- The order of bytes, so that `Str` carries the order of `strings.Compare`. -/
instance linearOrderUInt8 : LinearOrder UInt8 where
  le_refl := UInt8.le_refl
  le_trans _ _ _ := UInt8.le_trans
  le_antisymm _ _ := UInt8.le_antisymm
  le_total := UInt8.le_total
  lt_iff_le_not_ge a b := by
    simp only [UInt8.lt_iff_toNat_lt, UInt8.le_iff_toNat_le]
    omega
  toDecidableLE := inferInstance
  toDecidableEq := inferInstance
  toDecidableLT := inferInstance

/-! What definitions need of bytes and strings, by name. -/

instance lawfulBEqUInt8 : LawfulBEq UInt8 := inferInstance

instance lawfulBEqStr : LawfulBEq Str := inferInstance

instance isTransStr : IsTrans Str (· ≤ ·) := inferInstance

instance antisymmStr : Std.Antisymm fun s t : Str ↦ s ≤ t := inferInstance

instance totalStr : Std.Total fun s t : Str ↦ s ≤ t := inferInstance

/-! ## Bytes with a meaning -/

/-- `/` -/
def slash : UInt8 := 0x2f

/-- `\` -/
def backslash : UInt8 := 0x5c

/-- `:` -/
def colon : UInt8 := 0x3a

/-- `.` -/
def dot : UInt8 := 0x2e

def isAsciiLetter (c : UInt8) : Bool :=
  (0x41 ≤ c && c ≤ 0x5a) || (0x61 ≤ c && c ≤ 0x7a)

/-- `strings.ReplaceAll` of one byte by another. -/
def replaceAll (old new : UInt8) (s : Str) : Str := s.map fun c ↦ if c = old then new else c

/-- `strings.Cut` at one byte: the text before and after its first occurrence,
or nothing when it does not occur. -/
def cut (sep : UInt8) : Str → Option (Str × Str)
  | [] => none
  | c :: s => if c = sep then some ([], s) else (cut sep s).map fun p ↦ (c :: p.1, p.2)

/-- `strings.CutPrefix`. -/
def cutPrefix (pre s : Str) : Option Str :=
  if pre.isPrefixOf s then some (s.drop pre.length) else none

variable {sep : UInt8}

theorem cut_eq_some {s a b : Str} (h : cut sep s = some (a, b)) : s = a ++ sep :: b ∧ sep ∉ a := by
  induction s generalizing a b with
  | nil => simp [cut] at h
  | cons c s ih =>
      unfold cut at h
      split at h
      · rename_i hc
        simp only [Option.some.injEq, Prod.mk.injEq] at h
        obtain ⟨rfl, rfl⟩ := h
        simp [hc]
      · rename_i hc
        obtain ⟨⟨a', b'⟩, hs, heq⟩ := Option.map_eq_some_iff.mp h
        simp only [Prod.mk.injEq] at heq
        obtain ⟨rfl, rfl⟩ := heq
        obtain ⟨rfl, hna⟩ := ih hs
        exact ⟨rfl, by simp [hna, Ne.symm hc]⟩

theorem cut_eq_none {s : Str} : cut sep s = none ↔ sep ∉ s := by
  induction s with
  | nil => simp [cut]
  | cons c s ih =>
      unfold cut
      split
      · rename_i hc
        simp [hc]
      · rename_i hc
        simp [ih, Ne.symm hc]

theorem cut_append_cons {a b : Str} (h : sep ∉ a) : cut sep (a ++ sep :: b) = some (a, b) := by
  induction a with
  | nil => simp [cut]
  | cons c a ih =>
      simp only [List.mem_cons, not_or] at h
      simp [cut, Ne.symm h.1, ih h.2]

theorem cutPrefix_eq_some {pre s t : Str} : cutPrefix pre s = some t ↔ s = pre ++ t := by
  unfold cutPrefix
  constructor
  · intro h
    split at h
    · rename_i hp
      obtain ⟨u, rfl⟩ := List.isPrefixOf_iff_prefix.mp hp
      simp only [List.drop_left, Option.some.injEq] at h
      rw [h]
    · simp at h
  · rintro rfl
    simp

def hexDigit (n : Nat) : UInt8 := if n < 10 then .ofNat (0x30 + n) else .ofNat (0x57 + n)

/-- `hex.EncodeToString`. -/
def hexEncode (s : Str) : Str :=
  s.flatMap fun b ↦ [hexDigit (b.toNat / 16), hexDigit (b.toNat % 16)]

/-! ## Splitting and joining -/

theorem notMem_of_mem_splitOn {s segment : Str} (h : segment ∈ s.splitOn sep) : sep ∉ segment := by
  induction s generalizing segment with
  | nil =>
      simp only [List.splitOn_nil, List.mem_singleton] at h
      simp [h]
  | cons c s ih =>
      rw [List.splitOn_cons_eq_if_modifyHead] at h
      split at h
      · rcases List.mem_cons.mp h with rfl | h
        · simp
        · exact ih h
      · rename_i hc
        cases hs : s.splitOn sep with
        | nil => exact absurd hs (List.splitOn_ne_nil sep s)
        | cons first rest =>
            rw [hs, List.modifyHead_cons] at h
            rcases List.mem_cons.mp h with rfl | h
            · have hfirst := ih (hs ▸ List.mem_cons_self)
              simp only [beq_iff_eq] at hc
              simp [hfirst, Ne.symm hc]
            · exact ih (hs ▸ List.mem_cons_of_mem _ h)

theorem intercalate_append (sep : Str) {first second : List Str} (hfirst : first ≠ [])
    (hsecond : second ≠ []) :
    sep.intercalate (first ++ second) = sep.intercalate first ++ sep ++ sep.intercalate second := by
  induction first with
  | nil => contradiction
  | cons segment first ih =>
      cases first with
      | nil => simp [List.intercalate_cons_of_ne_nil hsecond]
      | cons next first =>
          rw [List.cons_append, List.cons_append, List.intercalate_cons_cons,
            List.intercalate_cons_cons, ← List.cons_append, ih (by simp)]
          simp

/-- Every byte of a join is a separator or a byte of one of the parts. -/
theorem mem_intercalate {sep c : UInt8} {segments : List Str}
    (h : c ∈ [sep].intercalate segments) : c = sep ∨ ∃ segment ∈ segments, c ∈ segment := by
  induction segments with
  | nil => simp at h
  | cons segment segments ih =>
      cases segments with
      | nil => exact .inr ⟨segment, by simp, by simpa using h⟩
      | cons next rest =>
          rw [List.intercalate_cons_cons, List.mem_append, List.mem_append,
            List.mem_singleton] at h
          rcases h with (h | h) | h
          · exact .inr ⟨segment, by simp, h⟩
          · exact .inl h
          · rcases ih h with h | ⟨s, hs, h⟩
            · exact .inl h
            · exact .inr ⟨s, List.mem_cons_of_mem _ hs, h⟩

/-- Every byte of a part of a split is a byte of the whole. -/
theorem mem_of_mem_splitOn {sep c : UInt8} {s segment : Str} (h : segment ∈ s.splitOn sep)
    (hc : c ∈ segment) : c ∈ s := by
  have key (segments : List Str) (h : segment ∈ segments) : c ∈ [sep].intercalate segments := by
    induction segments with
    | nil => simp at h
    | cons first rest ih =>
        cases rest with
        | nil => simpa [List.mem_singleton.mp h] using hc
        | cons next rest =>
            rw [List.intercalate_cons_cons, List.mem_append, List.mem_append]
            rcases List.mem_cons.mp h with rfl | h
            · exact .inl (.inl hc)
            · exact .inr (ih h)
  simpa using key _ h

/-! ## Runes -/

/-- `utf8.RuneError`, what an invalid byte decodes to. -/
def runeError : Nat := 0xfffd

/-- The width announced by a leading byte and the range its second byte must
lie in; `none` for a byte that cannot lead a sequence of two or more. -/
def leadInfo (b : UInt8) : Option (Nat × UInt8 × UInt8) :=
  if b < 0xc2 then none
  else if b < 0xe0 then some (2, 0x80, 0xbf)
  else if b = 0xe0 then some (3, 0xa0, 0xbf)
  else if b = 0xed then some (3, 0x80, 0x9f)
  else if b < 0xf0 then some (3, 0x80, 0xbf)
  else if b = 0xf0 then some (4, 0x90, 0xbf)
  else if b < 0xf4 then some (4, 0x80, 0xbf)
  else if b = 0xf4 then some (4, 0x80, 0x8f)
  else none

/-- A byte `80 … BF`. -/
def isContinuation (b : UInt8) : Bool := 0x80 ≤ b && b ≤ 0xbf

/-- `utf8.DecodeRune`: the first rune and how many bytes follow its first. -/
def decodeRune (b₀ : UInt8) (rest : Str) : Nat × Nat :=
  if b₀ < 0x80 then (b₀.toNat, 0)
  else match leadInfo b₀, rest with
    | some (2, lo, hi), b₁ :: _ =>
      if lo ≤ b₁ ∧ b₁ ≤ hi then (b₀.toNat % 32 * 64 + b₁.toNat % 64, 1) else (runeError, 0)
    | some (3, lo, hi), b₁ :: b₂ :: _ =>
      if (lo ≤ b₁ ∧ b₁ ≤ hi) ∧ isContinuation b₂ then
        (b₀.toNat % 16 * 4096 + b₁.toNat % 64 * 64 + b₂.toNat % 64, 2)
      else (runeError, 0)
    | some (4, lo, hi), b₁ :: b₂ :: b₃ :: _ =>
      if (lo ≤ b₁ ∧ b₁ ≤ hi) ∧ isContinuation b₂ ∧ isContinuation b₃ then
        (b₀.toNat % 8 * 262144 + b₁.toNat % 64 * 4096 + b₂.toNat % 64 * 64 + b₃.toNat % 64, 3)
      else (runeError, 0)
    | _, _ => (runeError, 0)

/-- The runes of a string whose first `skip` bytes belong to a rune already
decoded. -/
def runesFrom : Nat → Str → List Nat
  | _, [] => []
  | 0, b :: s => (decodeRune b s).1 :: runesFrom (decodeRune b s).2 s
  | skip + 1, _ :: s => runesFrom skip s

def runes (s : Str) : List Nat := runesFrom 0 s

/-- `unicode.IsControl`. -/
def isControl (r : Nat) : Bool := r < 0x20 || (0x7f ≤ r && r < 0xa0)

def isControlByte (b : UInt8) : Bool := b < 0x20 || b == 0x7f

/-- The second byte of `C2 80 … C2 9F`. -/
def isControlTail : Str → Bool
  | b :: _ => 0x80 ≤ b && b < 0xa0
  | [] => false

/-- Some control rune, read off the bytes. -/
def hasControlByte : Str → Bool
  | [] => false
  | b :: s => isControlByte b || (b == 0xc2 && isControlTail s) || hasControlByte s

/-- What a leading byte of width two, three or four promises. -/
theorem leadInfo_eq_some {b lo hi : UInt8} {n : Nat} (h : leadInfo b = some (n, lo, hi)) :
    0xc2 ≤ b.toNat ∧ 0x80 ≤ lo.toNat ∧ hi.toNat ≤ 0xbf ∧
      (n = 2 → b.toNat < 0xe0 ∧ lo = 0x80 ∧ hi = 0xbf) ∧
      (n = 3 → 0xe0 ≤ b.toNat ∧ b.toNat < 0xf0 ∧ (b.toNat = 0xe0 → 0xa0 ≤ lo.toNat)) ∧
      (n = 4 → 0xf0 ≤ b.toNat ∧ b.toNat < 0xf5 ∧ (b.toNat = 0xf0 → 0x90 ≤ lo.toNat)) := by
  unfold leadInfo at h
  simp only [UInt8.lt_iff_toNat_lt, ← UInt8.toNat_inj] at h ⊢
  split_ifs at h
  all_goals
    simp only [Option.some.injEq, Prod.mk.injEq] at h
    obtain ⟨rfl, rfl, rfl⟩ := h
    simp_all
    try omega

/-- Bytes following the first of a decoded rune are continuation bytes. -/
theorem isContinuation_of_mem_take_decodeRune {b c : UInt8} {s : Str}
    (h : c ∈ s.take (decodeRune b s).2) : isContinuation c := by
  have key (lo hi x : UInt8) (hlo : 0x80 ≤ lo.toNat) (hhi : hi.toNat ≤ 0xbf)
      (hx : lo ≤ x ∧ x ≤ hi) : isContinuation x := by
    simp only [isContinuation, UInt8.le_iff_toNat_le, Bool.and_eq_true, decide_eq_true_eq] at hx ⊢
    simp
    omega
  unfold decodeRune at h
  split at h
  · simp at h
  · split at h
    · rename_i hl
      split at h
      · rename_i hx
        obtain ⟨-, hlo, hhi, -⟩ := leadInfo_eq_some hl
        simp only [List.take_succ_cons, List.take_zero, List.mem_singleton] at h
        subst h
        exact key _ _ _ hlo hhi hx
      · simp at h
    · rename_i hl
      split at h
      · rename_i hx
        obtain ⟨-, hlo, hhi, -⟩ := leadInfo_eq_some hl
        simp only [List.take_succ_cons, List.take_zero, List.mem_cons, List.not_mem_nil,
          or_false] at h
        rcases h with rfl | rfl
        · exact key _ _ _ hlo hhi hx.1
        · exact hx.2
      · simp at h
    · rename_i hl
      split at h
      · rename_i hx
        obtain ⟨-, hlo, hhi, -⟩ := leadInfo_eq_some hl
        simp only [List.take_succ_cons, List.take_zero, List.mem_cons, List.not_mem_nil,
          or_false] at h
        rcases h with rfl | rfl | rfl
        · exact key _ _ _ hlo hhi hx.1
        · exact hx.2.1
        · exact hx.2.2
      · simp at h
    · simp at h

theorem isControl_iff {r : Nat} : isControl r = true ↔ r < 0x20 ∨ (0x7f ≤ r ∧ r < 0xa0) := by
  simp [isControl]

theorem isControlByte_iff {b : UInt8} :
    isControlByte b = true ↔ b.toNat < 0x20 ∨ b.toNat = 0x7f := by
  simp [isControlByte, UInt8.lt_iff_toNat_lt, ← UInt8.toNat_inj]

/-- The first rune is a control character exactly when the bytes say so. -/
theorem isControl_decodeRune (b : UInt8) (s : Str) :
    isControl (decodeRune b s).1 = (isControlByte b || (b == 0xc2 && isControlTail s)) := by
  rw [Bool.eq_iff_iff, Bool.or_eq_true, Bool.and_eq_true, beq_iff_eq, isControl_iff,
    isControlByte_iff, ← UInt8.toNat_inj]
  unfold decodeRune
  split
  · rename_i hb
    simp only [UInt8.lt_iff_toNat_lt] at hb
    simp at hb ⊢
    omega
  · rename_i hb
    simp only [UInt8.lt_iff_toNat_lt, not_lt] at hb
    simp at hb
    split
    · rename_i lo hi b₁ t hl
      obtain ⟨h₀, -, -, h₂, -⟩ := leadInfo_eq_some hl
      obtain ⟨h₁, rfl, rfl⟩ := h₂ rfl
      simp only [isControlTail, UInt8.le_iff_toNat_le, UInt8.lt_iff_toNat_lt, Bool.and_eq_true,
        decide_eq_true_eq]
      split
      · rename_i hx
        simp at hx ⊢
        omega
      · rename_i hx
        simp [runeError] at hx ⊢
        omega
    · rename_i lo hi b₁ b₂ t hl
      obtain ⟨h₀, -, hhi, -, h₃, -⟩ := leadInfo_eq_some hl
      obtain ⟨h₁, h₂, h₄⟩ := h₃ rfl
      simp only [UInt8.le_iff_toNat_le]
      split
      · rename_i hx
        simp at hx ⊢
        omega
      · simp [runeError]
        omega
    · rename_i lo hi b₁ b₂ b₃ t hl
      obtain ⟨h₀, -, hhi, -, -, h₃⟩ := leadInfo_eq_some hl
      obtain ⟨h₁, h₂, h₄⟩ := h₃ rfl
      simp only [UInt8.le_iff_toNat_le]
      split
      · rename_i hx
        simp at hx ⊢
        omega
      · simp [runeError]
        omega
    · rename_i s _ _ h₂ _ _
      have hc : ¬(b.toNat = (0xc2 : UInt8).toNat ∧ isControlTail s = true) := by
        rintro ⟨hb₂, ht⟩
        rw [UInt8.toNat_inj] at hb₂
        subst hb₂
        cases s with
        | nil => simp [isControlTail] at ht
        | cons b₁ t => exact h₂ 0x80 0xbf b₁ t (by decide) rfl
      rw [or_iff_left hc]
      simp [runeError]
      omega

/-- Whether a string holds a control rune can be read off its bytes. -/
theorem any_isControl_runesFrom (skip : Nat) (s : Str)
    (h : ∀ c ∈ s.take skip, isContinuation c) :
    (runesFrom skip s).any isControl = hasControlByte s := by
  induction s generalizing skip with
  | nil => cases skip <;> rfl
  | cons b s ih =>
      cases skip with
      | zero =>
          rw [runesFrom, List.any_cons, isControl_decodeRune, hasControlByte,
            ih _ fun c hc ↦ isContinuation_of_mem_take_decodeRune hc]
      | succ skip =>
          rw [List.take_succ_cons, List.forall_mem_cons] at h
          rw [runesFrom, ih skip h.2, hasControlByte]
          have hb : isControlByte b = false ∧ (b == 0xc2) = false := by
            have hc := h.1
            simp only [isContinuation, UInt8.le_iff_toNat_le, Bool.and_eq_true,
              decide_eq_true_eq] at hc
            rw [← Bool.not_eq_true, isControlByte_iff, beq_eq_false_iff_ne, ne_eq,
              ← UInt8.toNat_inj]
            simp at hc ⊢
            omega
          simp [hb]

/-- `runes` form of `any_isControl_runesFrom`. -/
theorem any_isControl_runes (s : Str) : (runes s).any isControl = hasControlByte s :=
  any_isControl_runesFrom 0 s (by simp)

theorem hasControlByte_of_mem {b : UInt8} {s : Str} (hb : isControlByte b = true) (h : b ∈ s) :
    hasControlByte s = true := by
  induction s with
  | nil => exact absurd h List.not_mem_nil
  | cons c s ih =>
      rcases List.mem_cons.mp h with rfl | h
      · simp [hasControlByte, hb]
      · simp [hasControlByte, ih h]

/-- A slash separates: a control rune never straddles it. -/
theorem hasControlByte_append_cons (a b : Str) :
    hasControlByte (a ++ slash :: b) = (hasControlByte a || hasControlByte b) := by
  induction a with
  | nil => simp [hasControlByte, isControlByte, slash]
  | cons c a ih =>
      have ht : isControlTail (a ++ slash :: b) = isControlTail a := by
        cases a with
        | nil => rfl
        | cons => rfl
      simp only [List.cons_append, hasControlByte, ih, ht, Bool.or_assoc]

theorem hasControlByte_intercalate (segments : List Str) :
    hasControlByte ([slash].intercalate segments) = segments.any hasControlByte := by
  induction segments with
  | nil => rfl
  | cons segment segments ih =>
      cases segments with
      | nil => simp
      | cons next rest =>
          rw [List.intercalate_cons_cons, List.append_assoc, List.singleton_append,
            hasControlByte_append_cons, ih]
          rfl

/-- Turning backslashes into slashes neither makes nor hides a control rune. -/
theorem hasControlByte_replaceAll (s : Str) :
    hasControlByte (replaceAll backslash slash s) = hasControlByte s := by
  have tail (s : Str) : isControlTail (replaceAll backslash slash s) = isControlTail s := by
    cases s with
    | nil => rfl
    | cons b s =>
        simp only [replaceAll, List.map_cons, isControlTail]
        split
        · rename_i h
          subst h
          rfl
        · rfl
  induction s with
  | nil => rfl
  | cons b s ih =>
      have hmap : replaceAll backslash slash (b :: s) =
          (if b = backslash then slash else b) :: replaceAll backslash slash s := rfl
      rw [hmap, hasControlByte, hasControlByte, ih, tail]
      split
      · rename_i h
        subst h
        rfl
      · rfl

end GoFilesystem.Go

