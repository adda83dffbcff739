import GoFilesystem.S3.Listing

/-!
# Keys and paths

The adapter writes a path as a key beneath its prefix, and reads a key back by
taking the prefix off and parsing what is left.  The prefix is a path itself:
`newAdapter` parses the one that is configured.

| source | here |
|---|---|
| `newAdapter`, the prefix | `normalizePrefix` |
| `key`, `logicalPath` | `Adapter.key`, `Adapter.logicalPath` |
| `input.Prefix` of `List` | `Input.keyPrefix` of `Adapter.requests` |

Paths and keys correspond one to one, and what a listing asks for are exactly
the keys of the paths beneath the directory, segment by segment
(`key_mapping`).
-/

namespace GoFilesystem.S3

open Go

/-- The prefix that `newAdapter` stores; the root is none. -/
def normalizePrefix (configured : Str) : Except Err Path :=
  if configured ≠ [] then
    match parsePath configured with
    | .error err => .error (.wrap "s3: invalid prefix: %w" [] err.err)
    | .ok prefixPath => .ok prefixPath
  else .ok .root

/-- A configured prefix that is accepted is stored. -/
theorem ne_root_of_normalizePrefix {configured : Str} {prefixPath : Path}
    (h : normalizePrefix configured = .ok prefixPath) (hne : configured ≠ []) :
    prefixPath ≠ .root := by
  rw [normalizePrefix, if_pos hne] at h
  cases hparse : parsePath configured with
  | error err => rw [hparse] at h; contradiction
  | ok parsed =>
      rw [hparse] at h
      cases h
      exact ne_root_of_parsePath hparse

variable {σ : Type} {a : Adapter}

/-! ## Keys -/

theorem under_injective (a : Adapter) : Function.Injective a.under := by
  intro name name' h
  unfold Adapter.under at h
  split at h
  · exact h
  · exact List.tail_eq_of_cons_eq (List.append_cancel_left h)

/-! ## Listings -/

/-- Every request of a listing has the prefix of the first one. -/
theorem keyPrefix_of_mem_requests {serve : Service σ} {directory : Path} {limit : Int} {fuel : Nat}
    {loop request : Loop σ} (h : request ∈ loop.requests a serve directory limit fuel) :
    request.input.keyPrefix = loop.input.keyPrefix := by
  induction fuel generalizing loop with
  | zero => contradiction
  | succ fuel ih =>
      rcases List.mem_cons.mp h with rfl | h
      · rfl
      · cases hstep : loop.step a serve directory limit with
        | inr result => rw [hstep] at h; contradiction
        | inl next =>
            rw [hstep] at h
            rw [ih h]
            unfold Loop.step at hstep
            split at hstep
            · contradiction
            · split at hstep
              · contradiction
              · split at hstep
                · contradiction
                · split_ifs at hstep
                  cases hstep
                  rfl

/-- The prefix that a listing sends; no prefix is the empty one. -/
theorem keyPrefix_of_mem_list {maxCap : Int} {serve : Service σ} {fuel : Nat} {service : σ}
    {directory : Path} {options : ListOptions} {request : Loop σ}
    (h : request ∈ a.requests maxCap serve fuel service directory options) :
    request.input.keyPrefix.getD [] = a.listPrefix directory := by
  unfold Adapter.requests at h
  split_ifs at h
  · contradiction
  rw [keyPrefix_of_mem_requests h]
  change (optionalString (a.listPrefix directory)).getD [] = _
  unfold optionalString
  split_ifs with hempty
  · exact hempty.symm
  · rfl

/-- For every configured prefix that is accepted, the keys of paths lie beneath
the prefix, tell paths apart and decode to the paths they came from; and the
prefix in every request of a listing is that of exactly the keys of the paths
strictly beneath the directory. -/
theorem key_mapping {configured : Str} (h : normalizePrefix configured = .ok a.prefixPath) :
    (∀ p, p ≠ .root → configured ≠ [] → a.prefixPath.value ++ [slash] <+: a.key p) ∧
    (∀ p q, p ≠ .root → q ≠ .root → a.key p = a.key q → p = q) ∧
    (∀ p, p ≠ .root → a.logicalPath (a.key p) false = some p ∧
      a.logicalPath (a.key p ++ [slash]) true = some p) ∧
    ∀ maxCap (serve : Service σ) fuel service d options,
      ∀ request ∈ a.requests maxCap serve fuel service d options, ∀ p, p ≠ .root →
        (request.input.keyPrefix.getD [] <+: a.key p ↔ p.IsBeneath d) := by
  refine ⟨fun p _ hne ↦ ?_, fun p q _ _ hkey ↦ Path.ext (under_injective a hkey),
    fun p hp ↦ logicalPath_under a (Path.normalForm hp), fun _ _ _ _ d _ request hrequest p hp ↦ ?_⟩
  · have hprefix := (Path.normalForm (ne_root_of_normalizePrefix h hne)).ne_nil
    rw [Adapter.key, if_neg hprefix]
    exact ⟨p.value, by simp⟩
  · rw [keyPrefix_of_mem_list hrequest]
    exact listPrefix_isPrefix_iff a hp

/-- A prefix is stored in normal form, and the paths beside a directory whose
name it begins with are not listed with it. -/
theorem key_mapping_tenant :
    let a : Adapter := { bucket := .lit "b", prefixPath := ⟨.lit "t/x", .inr (by decide)⟩ }
    let p : Path := ⟨.lit "ab", .inr (by decide)⟩
    let d : Path := ⟨.lit "a", .inr (by decide)⟩
    normalizePrefix (.lit "/t\\x/") = .ok a.prefixPath ∧ a.key p = .lit "t/x/ab" ∧
      a.logicalPath (a.key p) false = some p ∧
      (∀ request ∈ a.requests 10000 (fun s _ ↦ (.ok {}, s)) 1 () d {},
        (request.input.keyPrefix.getD [] <+: a.key p ↔ p.IsBeneath d)) ∧
      ¬p.IsBeneath d := by
  intro a p d
  have hconfigured : normalizePrefix (.lit "/t\\x/") = .ok a.prefixPath := by decide
  obtain ⟨-, -, hdecode, hlist⟩ := key_mapping (σ := Unit) hconfigured
  refine ⟨hconfigured, by decide, (hdecode p (by decide)).1,
    fun request hrequest ↦ hlist 10000 _ 1 () d {} request hrequest p (by decide), ?_⟩
  rw [Path.isBeneath_iff (by decide) (by decide)]
  decide

end GoFilesystem.S3
