import GoFilesystem.Go.Fold
import GoFilesystem.Go.Replace

/-!
# Redacting error texts

Package `redact`: the text of an error loses the user and the query of every URL,
then the rest of every line from one of five header names on, then every secret that
the caller names.

A header name is replaced by a loop that starts again from the beginning of the
message each time.  It ends, since a line in which a name was found has none
afterwards: what is left of it is a prefix, followed by `[REDACTED HEADER]`, and a
name has neither a `[` nor a place inside the marker.  So a pass does to each line on
its own what `redactLine` does (`IsHeader.rounds`), in one round for each line that
has the name.

Secrets are replaced one after another, so that what happens to one may depend on
those before it and on the marker.
-/

namespace GoFilesystem.Redact

open Go

/-! ## URLs -/

/-- What is used of package `net/url`. -/
structure Urls where
  URL : Type
  /-- `url.Parse`; `none` is an error. -/
  parse : Str → Option URL
  /-- The URL with another `User`, which is nil. -/
  withoutUser : URL → URL
  rawQuery : URL → Str
  withRawQuery : URL → Str → URL
  string : URL → Str

/-- `unicode.IsSpace`. -/
def isSpace (r : Nat) : Bool :=
  (0x09 ≤ r && r ≤ 0x0d) || r = 0x20 || r = 0x85 || r = 0xa0 || r = 0x1680 ||
    (0x2000 ≤ r && r ≤ 0x200a) || r = 0x2028 || r = 0x2029 || r = 0x202f || r = 0x205f ||
    r = 0x3000

def beginsWithSpace : Str → Bool
  | [] => false
  | b :: s => isSpace (decodeRune b s).1

/-- Whether a text begins with a match of `(?i)https?://`. -/
def beginsWithScheme (s : Str) : Bool :=
  matchFold (.lit "http://") s || matchFold (.lit "https://") s

/-- `firstURLIndex`. -/
def firstURLIndex (message : Str) : Option Nat := findRune beginsWithScheme message

variable (urls : Urls)

def sanitizeURL (raw : Str) : Str :=
  match urls.parse raw with
  | none => .lit "[REDACTED URL]"
  | some parsed =>
    let parsed := urls.withoutUser parsed
    let parsed := if urls.rawQuery parsed ≠ [] then urls.withRawQuery parsed (.lit "REDACTED")
      else parsed
    urls.string parsed

/-- Where the URL that a text begins with ends. -/
def urlEnd (rest : Str) : Nat := (findRune beginsWithSpace rest).getD rest.length

/-- The loop of `redactURLs`, for at most `fuel` rounds. -/
def redactURLsFrom : Nat → Str → Str
  | 0, _ => []
  | fuel + 1, message =>
    if message = [] then []
    else
      match firstURLIndex message with
      | none => message
      | some index =>
        let rest := message.drop index
        message.take index ++ sanitizeURL urls (rest.take (urlEnd rest)) ++
          redactURLsFrom fuel (rest.drop (urlEnd rest))

/-- `redactURLs`. -/
def redactURLs (message : Str) : Str := redactURLsFrom urls (message.length + 1) message

/-- The loop of `redactURLs` returns a text after a number of rounds. -/
inductive URLRounds : Nat → Str → Str → Prop
  | done : URLRounds 0 [] []
  | last {message : Str} (hne : message ≠ []) (h : firstURLIndex message = none) :
      URLRounds 1 message message
  | next {n index : Nat} {message rest result : Str} (hne : message ≠ [])
      (h : firstURLIndex message = some index) (hdrop : message.drop index = rest)
      (hrest : URLRounds n (rest.drop (urlEnd rest)) result) :
      URLRounds (n + 1) message
        (message.take index ++ sanitizeURL urls (rest.take (urlEnd rest)) ++ result)

/-- A URL does not begin with a space. -/
theorem not_beginsWithSpace {s : Str} (h : beginsWithScheme s = true) :
    beginsWithSpace s = false := by
  have hletter {name : Str} (hname : IsAscii (0x68 :: name))
      (hmatch : matchFold (0x68 :: name) s = true) : beginsWithSpace s = false := by
    obtain ⟨w, hw, hbegin⟩ := (matchFold_iff hname).mp hmatch
    cases hw with
    | @ascii _ b _ w hb hc =>
        obtain ⟨rest, rfl⟩ := hbegin
        rw [List.cons_append, beginsWithSpace, decodeRune_ascii hb]
        have hcases : b.toNat = 0x48 ∨ b.toNat = 0x68 := by
          have hc' : foldRune b.toNat = 0x68 := hc
          unfold foldRune at hc'
          split_ifs at hc' <;> omega
        rcases hcases with heq | heq <;> rw [heq] <;> rfl
  rcases Bool.or_eq_true_iff.mp h with hmatch | hmatch
  · exact hletter (by decide +kernel) hmatch
  · exact hletter (by decide +kernel) hmatch

section URLs

variable {urls} {message : Str}

/-- Every round of the loop takes a part of the message. -/
theorem length_drop_urlEnd_lt {index : Nat} (h : firstURLIndex message = some index) :
    ((message.drop index).drop (urlEnd (message.drop index))).length < message.length := by
  obtain ⟨hlt, hscheme⟩ := of_findRuneFrom_eq_some h
  have hstop : 0 < urlEnd (message.drop index) := by
    unfold urlEnd
    cases hspace : findRune beginsWithSpace (message.drop index) with
    | none =>
        rw [Option.getD_none, List.length_drop]
        omega
    | some stop =>
        obtain ⟨-, htrue⟩ := of_findRuneFrom_eq_some hspace
        cases stop with
        | zero => exact nomatch (not_beginsWithSpace hscheme).symm.trans htrue
        | succ stop => exact Nat.zero_lt_succ stop
  rw [List.length_drop, List.length_drop]
  omega

/-- Fuel for one more round than there are is enough. -/
theorem URLRounds.redactURLsFrom_eq {n fuel : Nat} {result : Str}
    (h : URLRounds urls n message result) (hn : n < fuel) :
    redactURLsFrom urls fuel message = result := by
  induction h generalizing fuel with
  | done => cases fuel <;> rfl
  | last hne h =>
      obtain ⟨fuel, rfl⟩ := Nat.exists_eq_add_of_lt hn
      rw [redactURLsFrom, if_neg hne, h]
  | next hne h hdrop _ ih =>
      obtain ⟨fuel, rfl⟩ := Nat.exists_eq_add_of_lt hn
      rw [redactURLsFrom, if_neg hne, h]
      dsimp only
      rw [hdrop, ih (by omega)]

theorem exists_urlRounds (urls : Urls) (message : Str) :
    ∃ n ≤ message.length, URLRounds urls n message (redactURLs urls message) := by
  suffices hsuff : ∃ n ≤ message.length, ∃ result, URLRounds urls n message result by
    obtain ⟨n, hn, result, h⟩ := hsuff
    have heq : redactURLs urls message = result := h.redactURLsFrom_eq (Nat.lt_succ_of_le hn)
    exact ⟨n, hn, heq ▸ h⟩
  induction hlength : message.length using Nat.strong_induction_on generalizing message with
  | _ length ih =>
      subst hlength
      rcases eq_or_ne message [] with rfl | hne
      · exact ⟨0, le_rfl, _, .done⟩
      · cases hindex : firstURLIndex message with
        | none => exact ⟨1, List.length_pos_iff.mpr hne, _, .last hne hindex⟩
        | some index =>
            have hlt := length_drop_urlEnd_lt hindex
            obtain ⟨n, hn, result, h⟩ := ih _ hlt _ rfl
            exact ⟨n + 1, Nat.lt_of_le_of_lt hn hlt, _, .next hne hindex rfl h⟩

/-- The loop of `redactURLs` ends after at most as many rounds as the message has
bytes, since every round in which there is a URL leaves a shorter message: the URL up
to the next space is replaced, and the rest is redacted in the same way. -/
theorem urls_redacted (urls : Urls) (message : Str) :
    (∃ n ≤ message.length, URLRounds urls n message (redactURLs urls message)) ∧
    (firstURLIndex message = none → redactURLs urls message = message) ∧
    ∀ index, firstURLIndex message = some index →
      let rest := message.drop index
      let stop := (findRune beginsWithSpace rest).getD rest.length
      (rest.drop stop).length < message.length ∧
      redactURLs urls message = message.take index ++ sanitizeURL urls (rest.take stop) ++
        redactURLs urls (rest.drop stop) := by
  refine ⟨exists_urlRounds urls message, fun hnone ↦ ?_, fun index hindex ↦ ?_⟩
  · rcases eq_or_ne message [] with rfl | hne
    · rfl
    · rw [redactURLs, redactURLsFrom, if_neg hne, hnone]
  · have hlt := length_drop_urlEnd_lt hindex
    have hne : message ≠ [] := fun hnil ↦ Nat.not_lt_zero _ (hnil ▸ hlt)
    obtain ⟨n, hn, h⟩ := exists_urlRounds urls
      ((message.drop index).drop (urlEnd (message.drop index)))
    exact ⟨hlt, (URLRounds.next hne hindex rfl h).redactURLsFrom_eq (by omega)⟩

end URLs

/-! ## Headers -/

def newline : UInt8 := 0x0a

def headerMarker : Str := .lit "[REDACTED HEADER]"

/-- One round of the loop of `redactHeaders`; `none` where it returns the message. -/
def redactHeadersNext (header message : Str) : Option Str :=
  match indexFold header message with
  | none => none
  | some index =>
    let before := message.take index
    let remainder := message.drop index
    match cut newline remainder with
    | some (_, after) => some (before ++ headerMarker ++ newline :: after)
    | none => some (before ++ headerMarker)

/-- The loop of `redactHeaders` returns a message after a number of rounds. -/
inductive Rounds (header : Str) : Nat → Str → Str → Prop
  | done {message : Str} (h : redactHeadersNext header message = none) :
      Rounds header 0 message message
  | next {n : Nat} {message message' result : Str}
      (h : redactHeadersNext header message = some message')
      (hrest : Rounds header n message' result) : Rounds header (n + 1) message result

/-- The loop of `redactHeaders`, for at most `fuel` looks at the message. -/
def redactHeadersFrom (header : Str) : Nat → Str → Str
  | 0, message => message
  | fuel + 1, message =>
    match redactHeadersNext header message with
    | none => message
    | some message' => redactHeadersFrom header fuel message'

/-- `redactHeaders`; there is at most one round for each line. -/
def redactHeaders (header message : Str) : Str :=
  redactHeadersFrom header (message.count newline + 2) message

def headers : List Str :=
  [.lit "authorization:", .lit "proxy-authorization:", .lit "x-amz-security-token:",
    .lit "x-amz-credential:", .lit "x-amz-signature:"]

def redactAllHeaders (message : Str) : Str :=
  headers.foldl (fun message header ↦ redactHeaders header message) message

/-! ### One line at a time -/

section Lines

variable {header message message' a b : Str} {n k : Nat}

/-- What the proofs need of a header name: a line feed and the first byte of the
marker are in no spelling of it, and it is not in the rest of the marker. -/
structure IsHeader (header : Str) : Prop where
  isFolded : IsFolded header
  lineFeed : Separates newline header
  bracket : Separates 0x5b header
  marker : indexFold header (.lit "REDACTED HEADER]") = none

theorem isHeader_of_mem (h : header ∈ headers) : IsHeader header := by
  have hall : ∀ header ∈ headers, IsFolded header ∧ Separates newline header ∧
      Separates 0x5b header ∧ indexFold header (.lit "REDACTED HEADER]") = none := by
    decide +kernel
  obtain ⟨hname, hnewline, hbracket, hmarker⟩ := hall header h
  exact ⟨hname, hnewline, hbracket, hmarker⟩

/-- Nothing is found at the marker or inside it. -/
theorem IsHeader.indexFold_append_marker (h : IsHeader header) (line : Str) :
    indexFold header (line ++ headerMarker) = indexFold header line := by
  have hmarker : headerMarker = 0x5b :: Str.lit "REDACTED HEADER]" := by decide
  rw [hmarker, h.isFolded.indexFold_append_cons h.bracket, h.marker, Option.map_none,
    Option.or_none]

def redactLine (header line : Str) : Str :=
  match indexFold header line with
  | none => line
  | some index => line.take index ++ headerMarker

theorem newline_notMem_headerMarker : newline ∉ headerMarker := by decide

theorem newline_notMem_redactLine (h : newline ∉ a) : newline ∉ redactLine header a := by
  unfold redactLine
  split
  · exact h
  · rw [List.mem_append, not_or]
    exact ⟨fun hmem ↦ h (List.mem_of_mem_take hmem), newline_notMem_headerMarker⟩

/-- A round on a line. -/
theorem redactHeadersNext_line (h : newline ∉ a) :
    redactHeadersNext header a =
      (indexFold header a).map fun index ↦ a.take index ++ headerMarker := by
  unfold redactHeadersNext
  cases indexFold header a with
  | none => rfl
  | some index =>
      have hcut : cut newline (a.drop index) = none :=
        cut_eq_none.mpr fun hmem ↦ h (List.mem_of_mem_drop hmem)
      dsimp only [Option.map_some]
      rw [hcut]

/-- A round on a line and what follows it. -/
theorem IsHeader.next_append (hheader : IsHeader header) (ha : newline ∉ a) :
    redactHeadersNext header (a ++ newline :: b) =
      ((redactHeadersNext header a).map (· ++ newline :: b)).or
        ((redactHeadersNext header b).map (a ++ newline :: ·)) := by
  rw [redactHeadersNext_line ha, redactHeadersNext, redactHeadersNext,
    hheader.isFolded.indexFold_append_cons hheader.lineFeed]
  cases hindex : indexFold header a with
  | some index =>
      have hlt := lt_of_indexFold_eq_some hindex
      have hcut : cut newline (a.drop index ++ newline :: b) = some (a.drop index, b) :=
        cut_append_cons fun hmem ↦ ha (List.mem_of_mem_drop hmem)
      dsimp only [Option.some_or, Option.map_some]
      rw [List.drop_append_of_le_length hlt.le, List.take_append_of_le_length hlt.le, hcut]
  | none =>
      cases indexFold header b with
      | none => rfl
      | some index =>
          have hdrop : (a ++ newline :: b).drop (a.length + 1 + index) = b.drop index := by
            rw [Nat.add_assoc, List.drop_length_add_append, Nat.add_comm 1, List.drop_succ_cons]
          have htake : (a ++ newline :: b).take (a.length + 1 + index) =
              a ++ newline :: b.take index := by
            rw [Nat.add_assoc, List.take_length_add_append, Nat.add_comm 1, List.take_succ_cons]
          dsimp only [Option.none_or, Option.map_some, Option.map_none]
          rw [hdrop, htake]
          cases cut newline (b.drop index) with
          | none => simp
          | some parts => simp

/-- The loop on a line: it ends after one round, or at once. -/
theorem IsHeader.rounds_line (hheader : IsHeader header) (ha : newline ∉ a) :
    ∃ n ≤ 1, Rounds header n a (redactLine header a) := by
  unfold redactLine
  cases hindex : indexFold header a with
  | none =>
      refine ⟨0, Nat.zero_le 1, .done ?_⟩
      rw [redactHeadersNext_line ha, hindex]
      rfl
  | some index =>
      have hnext : redactHeadersNext header a = some (a.take index ++ headerMarker) := by
        rw [redactHeadersNext_line ha, hindex]
        rfl
      refine ⟨1, le_rfl, .next hnext (.done ?_)⟩
      have hclean : indexFold header (a.take index ++ headerMarker) = none := by
        rw [hheader.indexFold_append_marker]
        exact hheader.isFolded.indexFold_take hindex
      unfold redactHeadersNext
      rw [hclean]

/-- The loop on a line and what follows it: first the one, then the other. -/
theorem IsHeader.rounds_append (hheader : IsHeader header) {a' b' : Str} (ha : newline ∉ a)
    (hrounds : Rounds header n a a') (hrest : Rounds header k b b') :
    Rounds header (n + k) (a ++ newline :: b) (a' ++ newline :: b') := by
  induction hrounds with
  | @done a hdone =>
      rw [Nat.zero_add]
      induction hrest with
      | done hdone' =>
          refine .done ?_
          rw [hheader.next_append ha, hdone, hdone']
          rfl
      | next hnext _ ih =>
          refine .next ?_ ih
          rw [hheader.next_append ha, hdone, hnext]
          rfl
  | @next n a a₁ result hnext _ ih =>
      rw [Nat.add_right_comm]
      refine .next ?_ (ih ?_)
      · rw [hheader.next_append ha, hnext]
        rfl
      · rw [redactHeadersNext_line ha] at hnext
        obtain ⟨index, -, rfl⟩ := Option.map_eq_some_iff.mp hnext
        rw [List.mem_append, not_or]
        exact ⟨fun hmem ↦ ha (List.mem_of_mem_take hmem), newline_notMem_headerMarker⟩

def lines (message : Str) : List Str := message.splitOn newline

def unlines (lines : List Str) : Str := [newline].intercalate lines

theorem unlines_lines (message : Str) : unlines (lines message) = message :=
  List.intercalate_splitOn newline

theorem lines_unlines {ls : List Str} (h : ∀ l ∈ ls, newline ∉ l) (hne : ls ≠ []) :
    lines (unlines ls) = ls := List.splitOn_intercalate newline h hne

theorem unlines_cons_cons (l l' : Str) (ls : List Str) :
    unlines (l :: l' :: ls) = l ++ newline :: unlines (l' :: ls) := by
  unfold unlines
  rw [List.intercalate_cons_cons]
  simp

/-- The loop on a message of some lines. -/
theorem IsHeader.rounds_unlines (hheader : IsHeader header) {ls : List Str}
    (h : ∀ l ∈ ls, newline ∉ l) (hne : ls ≠ []) :
    ∃ n ≤ ls.length, Rounds header n (unlines ls) (unlines (ls.map (redactLine header))) := by
  induction ls with
  | nil => exact absurd rfl hne
  | cons l ls ih =>
      obtain ⟨n, hn, hline⟩ := hheader.rounds_line (h l List.mem_cons_self)
      cases ls with
      | nil =>
          refine ⟨n, hn, ?_⟩
          simpa [unlines] using hline
      | cons l' ls =>
          obtain ⟨k, hk, hrest⟩ :=
            ih (fun x hx ↦ h x (List.mem_cons_of_mem l hx)) (List.cons_ne_nil l' ls)
          refine ⟨n + k, ?_, ?_⟩
          · rw [List.length_cons]
            omega
          · rw [List.map_cons, unlines_cons_cons, List.map_cons, unlines_cons_cons]
            exact hheader.rounds_append (h l List.mem_cons_self) hline hrest

theorem Rounds.redactHeadersFrom_eq (h : Rounds header n message message') {fuel : Nat}
    (hfuel : n < fuel) : redactHeadersFrom header fuel message = message' := by
  induction h generalizing fuel with
  | done hdone =>
      obtain ⟨fuel, rfl⟩ := Nat.exists_eq_succ_of_ne_zero (Nat.ne_of_gt hfuel)
      rw [redactHeadersFrom, hdone]
  | next hnext _ ih =>
      obtain ⟨fuel, rfl⟩ := Nat.exists_eq_succ_of_ne_zero (Nat.ne_of_gt (Nat.zero_lt_of_lt hfuel))
      rw [redactHeadersFrom, hnext]
      exact ih (Nat.lt_of_succ_lt_succ hfuel)

theorem length_lines (message : Str) : (lines message).length = message.count newline + 1 := by
  induction message with
  | nil => rfl
  | cons b message ih =>
      unfold lines at ih ⊢
      rw [List.splitOn_cons_eq_if_modifyHead, List.count_cons]
      split
      · rw [List.length_cons, ih]
      · rw [List.length_modifyHead, ih]

/-- A pass does to each line what it does to a line, in as many rounds as lines have
the name. -/
theorem IsHeader.rounds (hheader : IsHeader header) (message : Str) :
    ∃ n ≤ (lines message).length, Rounds header n message (redactHeaders header message) ∧
      redactHeaders header message = unlines ((lines message).map (redactLine header)) := by
  obtain ⟨n, hn, hrounds⟩ := hheader.rounds_unlines
    (fun l hl ↦ notMem_of_mem_splitOn hl) (List.splitOn_ne_nil newline message)
  rw [show unlines (message.splitOn newline) = message from unlines_lines message] at hrounds
  have heq : redactHeaders header message = unlines ((lines message).map (redactLine header)) := by
    refine hrounds.redactHeadersFrom_eq ?_
    have hlength := length_lines message
    unfold lines at hlength
    omega
  exact ⟨n, hn, heq ▸ hrounds, heq⟩

theorem IsHeader.lines_redactHeaders (hheader : IsHeader header) (message : Str) :
    lines (redactHeaders header message) = (lines message).map (redactLine header) := by
  obtain ⟨-, -, -, heq⟩ := hheader.rounds message
  rw [heq, lines_unlines]
  · intro l hl
    obtain ⟨line, hline, rfl⟩ := List.mem_map.mp hl
    exact newline_notMem_redactLine (notMem_of_mem_splitOn hline)
  · exact mt List.map_eq_nil_iff.mp (List.splitOn_ne_nil newline message)

/-- A name is in a message if it is in one of its lines. -/
theorem IsHeader.indexFold_eq_none_iff (hheader : IsHeader header) (message : Str) :
    indexFold header message = none ↔ ∀ line ∈ lines message, indexFold header line = none := by
  suffices hsuff : ∀ ls : List Str, ls ≠ [] →
      (indexFold header (unlines ls) = none ↔ ∀ line ∈ ls, indexFold header line = none) by
    have h := hsuff (lines message) (List.splitOn_ne_nil newline message)
    rwa [unlines_lines] at h
  intro ls hne
  induction ls with
  | nil => exact absurd rfl hne
  | cons l ls ih =>
      cases ls with
      | nil => simp [unlines]
      | cons l' ls =>
          rw [unlines_cons_cons, hheader.isFolded.indexFold_append_cons hheader.lineFeed,
            Option.or_eq_none_iff, Option.map_eq_none_iff, ih (List.cons_ne_nil l' ls)]
          rw [List.forall_mem_cons (a := l)]

/-! ### All five -/

/-- What some passes have made of a line: it is as it was and has none of their names,
or a part of it is left, without their names, and the marker. -/
inductive LineAfter (done : List Str) (line : Str) : Str → Prop
  | same (h : ∀ header ∈ done, indexFold header line = none) : LineAfter done line line
  | redacted {before : Str} (hbefore : before <+: line) (hne : before ≠ line)
      (h : ∀ header ∈ done, indexFold header before = none)
      (hfound : ∃ header ∈ done, indexFold header line ≠ none) :
      LineAfter done line (before ++ headerMarker)

variable {done : List Str} {line line' : Str}

theorem IsHeader.notFound_of_isPrefix (hheader : IsHeader header) {before : Str}
    (hbefore : before <+: line) (h : indexFold header line = none) :
    indexFold header before = none := by
  obtain ⟨rest, rfl⟩ := hbefore
  exact hheader.isFolded.indexFold_eq_none_of_append h

/-- One more pass. -/
theorem LineAfter.pass (h : LineAfter done line line') (hdone : ∀ header ∈ done, IsHeader header)
    (hheader : IsHeader header) : LineAfter (done ++ [header]) line (redactLine header line') := by
  have hall {text : Str} (htext : ∀ header ∈ done, indexFold header text = none)
      (hlast : indexFold header text = none) :
      ∀ header' ∈ done ++ [header], indexFold header' text = none := by
    intro header' hmem
    rcases List.mem_append.mp hmem with hmem | hmem
    · exact htext header' hmem
    · exact List.mem_singleton.mp hmem ▸ hlast
  cases h with
  | same h =>
      unfold redactLine
      cases hindex : indexFold header line with
      | none => exact .same (hall h hindex)
      | some index =>
          have hlt := lt_of_indexFold_eq_some hindex
          refine .redacted (List.take_prefix index line) ?_ (hall ?_ ?_) ?_
          · intro heq
            rw [List.take_eq_self_iff] at heq
            omega
          · exact fun header' hmem ↦
              (hdone header' hmem).notFound_of_isPrefix (List.take_prefix index line)
                (h header' hmem)
          · exact hheader.isFolded.indexFold_take hindex
          · exact ⟨header, by simp, hindex ▸ nofun⟩
  | @redacted before hbefore hne h hfound =>
      have hfound' : ∃ header' ∈ done ++ [header], indexFold header' line ≠ none := by
        obtain ⟨header', hmem, hne⟩ := hfound
        exact ⟨header', List.mem_append_left _ hmem, hne⟩
      unfold redactLine
      rw [hheader.indexFold_append_marker]
      cases hindex : indexFold header before with
      | none => exact .redacted hbefore hne (hall h hindex) hfound'
      | some index =>
          have hlt := lt_of_indexFold_eq_some hindex
          have hle : before.take index <+: before := List.take_prefix index before
          dsimp only
          rw [List.take_append_of_le_length hlt.le]
          refine .redacted (hle.trans hbefore) ?_ (hall ?_ ?_) hfound'
          · intro heq
            have hlength := hbefore.length_le
            rw [← heq, List.length_take] at hlength
            omega
          · exact fun header' hmem ↦ (hdone header' hmem).notFound_of_isPrefix hle (h header' hmem)
          · exact hheader.isFolded.indexFold_take hindex

/-- The lines of a message after some passes. -/
theorem forall₂_lineAfter {names : List Str} (hnames : ∀ header ∈ names, IsHeader header)
    (message : Str) :
    List.Forall₂ (LineAfter names) (lines message)
      (lines (names.foldl (fun message header ↦ redactHeaders header message) message)) := by
  induction names using List.reverseRecOn with
  | nil => exact List.forall₂_same.mpr fun line _ ↦ .same nofun
  | append_singleton names header ih =>
      have hheader := hnames header (by simp)
      have hdone : ∀ header ∈ names, IsHeader header :=
        fun x hx ↦ hnames x (List.mem_append_left _ hx)
      rw [List.foldl_append, List.foldl_cons, List.foldl_nil, hheader.lines_redactHeaders,
        List.forall₂_map_right_iff]
      exact (ih hdone).imp fun _ _ h ↦ h.pass hdone hheader

/-- None of the names is left. -/
theorem LineAfter.notFound (h : LineAfter done line line') (hmem : header ∈ done)
    (hheader : IsHeader header) : indexFold header line' = none := by
  cases h with
  | same h => exact h header hmem
  | redacted _ _ h => rw [hheader.indexFold_append_marker, h header hmem]

end Lines

/-- Each loop comes to an end, after at most one round for each line, and after all
five no name is left.  There are as many lines as before: those that had none of the
names are unchanged, and of every other a proper prefix is left before the marker. -/
theorem headers_redacted (message : Str) :
    (∀ header ∈ headers, ∀ message, ∃ n ≤ (lines message).length,
      Rounds header n message (redactHeaders header message)) ∧
    (∀ header ∈ headers, indexFold header (redactAllHeaders message) = none) ∧
    (lines (redactAllHeaders message)).length = (lines message).length ∧
    List.Forall₂ (fun line line' ↦
        ((∀ header ∈ headers, indexFold header line = none) → line' = line) ∧
        ((∃ header ∈ headers, indexFold header line ≠ none) → ∃ before, before <+: line ∧
          before ≠ line ∧ line' = before ++ headerMarker))
      (lines message) (lines (redactAllHeaders message)) := by
  have hafter := forall₂_lineAfter (fun _ ↦ isHeader_of_mem) message
  refine ⟨fun header hmem message ↦ ?_, fun header hmem ↦ ?_, hafter.length_eq.symm, ?_⟩
  · obtain ⟨n, hn, hrounds, -⟩ := (isHeader_of_mem hmem).rounds message
    exact ⟨n, hn, hrounds⟩
  · rw [(isHeader_of_mem hmem).indexFold_eq_none_iff]
    have hflip : List.Forall₂ (fun line' line ↦ indexFold header line' = none ∧
        LineAfter headers line line') (lines (redactAllHeaders message)) (lines message) := by
      refine List.Forall₂.flip (hafter.imp fun line line' h ↦ ?_)
      exact ⟨h.notFound hmem (isHeader_of_mem hmem), h⟩
    exact ((List.forall₂_and_left _ _).mp hflip).1
  · refine hafter.imp fun line line' h ↦ ?_
    cases h with
    | same h => exact ⟨fun _ ↦ rfl, fun ⟨header, hmem, hne⟩ ↦ absurd (h header hmem) hne⟩
    | @redacted before hbefore hne _ hfound =>
        refine ⟨fun hnone ↦ ?_, fun _ ↦ ⟨before, hbefore, hne, rfl⟩⟩
        obtain ⟨header, hmem, hfound⟩ := hfound
        exact absurd (hnone header hmem) hfound

/-! ## Secrets -/

def marker : Str := .lit "[REDACTED]"

def redactSecret (message secret : Str) : Str :=
  if secret ≠ [] then Text.replaceAll secret marker message else message

/-- `Error`: the text of the error it returns. -/
def error (err : Option Str) (secrets : List Str) : Option Str :=
  err.map fun message ↦ secrets.foldl redactSecret (redactAllHeaders (redactURLs urls message))

variable {urls} {message secret : Str} {secrets secrets' : List Str}

theorem redactSecret_comm {p q : Str} (h : p ≠ [] → q ≠ [] → p ≠ q →
      Text.Apart p q ∧ Text.Apart p marker ∧ Text.Apart q marker) (message : Str) :
    redactSecret (redactSecret message p) q = redactSecret (redactSecret message q) p := by
  unfold redactSecret
  by_cases hp : p = []
  · simp [hp]
  by_cases hq : q = []
  · simp [hq]
  rcases eq_or_ne p q with rfl | hne
  · rfl
  obtain ⟨hpq, hpmarker, hqmarker⟩ := h hp hq hne
  rw [if_pos hp, if_pos hq, if_pos hq, if_pos hp]
  exact Text.replaceAll_comm hp hq hpq hpmarker hqmarker message

/-- A secret that is apart from the marker does not appear again. -/
theorem not_infix_redactSecret (h : Text.Apart secret marker) (hmessage : ¬ secret <:+: message)
    (other : Str) : ¬ secret <:+: redactSecret message other := by
  unfold redactSecret
  split
  · next hother => exact Text.not_infix_replaceAll h hother hmessage
  · exact hmessage

theorem not_infix_foldl (hmem : secret ∈ secrets) (hne : secret ≠ [])
    (h : Text.Apart secret marker) (message : Str) :
    ¬ secret <:+: secrets.foldl redactSecret message := by
  obtain ⟨before, after, rfl⟩ := List.append_of_mem hmem
  rw [List.foldl_append, List.foldl_cons]
  generalize before.foldl redactSecret message = message
  have hgone : ¬ secret <:+: redactSecret message secret := by
    unfold redactSecret
    rw [if_pos hne]
    exact Text.not_infix_replaceAll_self hne h
  exact List.foldlRecOn (motive := fun text ↦ ¬ secret <:+: text) after redactSecret hgone
    fun _ htext other _ ↦ not_infix_redactSecret h htext other

/-- In the text that `Error` returns there is no secret that can overlap with the
marker nowhere, and if no two of the secrets can overlap either, then the order in
which they are given makes no difference. -/
theorem secrets_redacted (urls : Urls) (message : Str) (secrets : List Str) :
    ∃ text, error urls (some message) secrets = some text ∧
      (∀ secret ∈ secrets, secret ≠ [] → Text.Apart secret marker → ¬ secret <:+: text) ∧
      ((∀ secret ∈ secrets, secret ≠ [] → Text.Apart secret marker) →
        (∀ p ∈ secrets, ∀ q ∈ secrets, p ≠ [] → q ≠ [] → p ≠ q → Text.Apart p q) →
        ∀ secrets', secrets'.Perm secrets → error urls (some message) secrets' = some text) := by
  refine ⟨_, rfl, fun secret hmem hne hapart ↦ not_infix_foldl hmem hne hapart _, ?_⟩
  intro hmarker hpairs secrets' hperm
  refine congrArg some (hperm.foldl_eq' (fun p hp q hq text ↦ ?_) _)
  have hp' := hperm.mem_iff.mp hp
  have hq' := hperm.mem_iff.mp hq
  exact redactSecret_comm (fun hpne hqne hne ↦ ⟨hpairs p hp' q hq' hpne hqne hne,
    hmarker p hp' hpne, hmarker q hq' hqne⟩) text

/-- A package `net/url` that parses nothing. -/
def Urls.rejecting : Urls where
  URL := Unit
  parse _ := none
  withoutUser := id
  rawQuery _ := []
  withRawQuery parsed _ := parsed
  string _ := []

theorem secrets_redacted_key_token :
    error .rejecting (some (.lit "key=token")) [.lit "token", .lit "key"] =
      some (.lit "[REDACTED]=[REDACTED]") := by
  obtain ⟨text, htext, -, hperm⟩ :=
    secrets_redacted .rejecting (.lit "key=token") [.lit "key", .lit "token"]
  have hsame := hperm (by decide) (by decide) _ (List.Perm.swap ..)
  rw [hsame, ← htext]
  rfl

/-- A secret that is a part of the marker is in the text afterwards, and two secrets
that overlap give two texts. -/
theorem secret_survives :
    (∃ text, error .rejecting (some (.lit "RED")) [.lit "RED"] = some text ∧
      Str.lit "RED" <:+: text) ∧
    error .rejecting (some (.lit "abc")) [.lit "ab", .lit "bc"] = some (.lit "[REDACTED]c") ∧
    error .rejecting (some (.lit "abc")) [.lit "bc", .lit "ab"] = some (.lit "a[REDACTED]") :=
  ⟨⟨.lit "[REDACTED]", rfl, by decide⟩, rfl, rfl⟩

end GoFilesystem.Redact
