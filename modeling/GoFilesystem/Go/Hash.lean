import GoFilesystem.Go.Str

/-!
# Hash functions

The digests of the package `hash`: bytes are written to a digest one chunk after
another, and its sum is asked for at the end.  A digest streams a function if that
sum is the function of all that was written, however it was cut into chunks.
-/

namespace GoFilesystem.Go

/-- `hash.Hash`. -/
structure Hash where
  State : Type
  new : State
  write : State → Str → State
  sum : State → Str

/-- `hash.Hash32`. -/
structure Hash32 extends Hash where
  sum32 : State → UInt32

/-- What `io.Copy` does to a digest: every chunk that is not empty is written. -/
def Hash.feed (h : Hash) (chunks : List Str) : h.State :=
  chunks.foldl (fun digest chunk ↦ if chunk = [] then digest else h.write digest chunk) h.new

/-- The digest and the function agree on every way to cut a string. -/
def Hash.Streams {α : Type} (h : Hash) (sum : h.State → α) (f : Str → α) : Prop :=
  ∀ chunks : List Str, sum (chunks.foldl h.write h.new) = f chunks.flatten

theorem Hash.feed_eq (h : Hash) (chunks : List Str) :
    h.feed chunks = (chunks.filter (· ≠ [])).foldl h.write h.new := by
  unfold Hash.feed
  rw [List.foldl_filter]
  congr 1
  funext digest chunk
  by_cases hchunk : chunk = [] <;> simp [hchunk]

/-- `io.Copy` feeds the content to the digest. -/
theorem Hash.Streams.feed {α : Type} {h : Hash} {sum : h.State → α} {f : Str → α}
    (hs : h.Streams sum f) (chunks : List Str) : sum (h.feed chunks) = f chunks.flatten := by
  have hflatten : (chunks.filter (· ≠ [])).flatten = chunks.flatten := by
    induction chunks with
    | nil => rfl
    | cons chunk chunks ih =>
        by_cases hchunk : chunk = [] <;> simp_all
  rw [h.feed_eq, hs, hflatten]

/-! ## Hexadecimal digits -/

def IsLowerHex (s : Str) : Prop := ∀ c ∈ s, c ∈ Str.lit "0123456789abcdef"

theorem hexDigit_mem {n : Nat} (h : n < 16) : hexDigit n ∈ Str.lit "0123456789abcdef" := by
  have hall : ∀ n : Fin 16, hexDigit n ∈ Str.lit "0123456789abcdef" := by decide
  exact hall ⟨n, h⟩

theorem isLowerHex_hexEncode (s : Str) : IsLowerHex (hexEncode s) := by
  intro c hc
  obtain ⟨b, -, hb⟩ := List.mem_flatMap.mp hc
  have hlt := b.toNat_lt
  simp only [List.mem_cons, List.not_mem_nil, or_false] at hb
  rcases hb with rfl | rfl
  · exact hexDigit_mem (by omega)
  · exact hexDigit_mem (by omega)

theorem length_hexEncode (s : Str) : (hexEncode s).length = 2 * s.length := by
  rw [hexEncode, List.length_flatMap]
  induction s with
  | nil => rfl
  | cons b s ih =>
      rw [List.map_cons, List.sum_cons, ih, List.length_cons]
      simp only [List.length_cons, List.length_nil]
      omega

end GoFilesystem.Go
