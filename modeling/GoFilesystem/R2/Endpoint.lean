import GoFilesystem.Go.Fold
import GoFilesystem.S3.Adapter

/-!
# The endpoint of an account

`validateEndpoint` of `r2/r2.go`: an endpoint is parsed, its parts are checked one
by one, and what is left of it, a scheme and an authority, is put together again.

The packages `net/url` and `net` are parameters (`Net`).  Of `net/url` the
documentation is assumed (`Net.Documented`): `String` writes a URL that has no user,
path and fragment as `scheme://host?query`, without an empty query, but with the
question mark if `ForceQuery` is set; the host of a parsed URL is written
without the characters that end a host or a user; and what `String` writes of the
scheme and the host of a parsed URL is a valid URL, which parses to them.  Of `net`
nothing is assumed but the form of an address.
-/

namespace GoFilesystem.R2

open Go

/-- `url.URL`, as far as the endpoint is concerned.  The user is present or not;
what it is does not matter. -/
structure URL where
  scheme : Str := []
  user : Option Str := none
  host : Str := []
  path : Str := []
  forceQuery : Bool := false
  rawQuery : Str := []
  fragment : Str := []
deriving DecidableEq

/-- `net.IP`, sixteen bytes. -/
abbrev IP := Str

/-- The packages `net/url` and `net`. -/
structure Net where
  /-- `url.Parse`; `none` is an error. -/
  parse : Str → Option URL
  /-- `URL.Hostname`, of the host of the URL. -/
  hostname : Str → Str
  /-- How `String` writes a host. -/
  escapeHost : Str → Str
  /-- `URL.String`. -/
  string : URL → Str
  /-- `net.ParseIP`; `none` is nil. -/
  parseIP : Str → Option IP

/-- The query as `String` writes it. -/
def URL.query (u : URL) : Str :=
  if u.forceQuery ∨ u.rawQuery ≠ [] then 0x3f :: u.rawQuery else []

/-- The URL with an empty `Path`. -/
def URL.withoutPath (u : URL) : URL := { u with path := [] }

/-- What the documentation of `net/url` says. -/
structure Net.Documented (net : Net) : Prop where
  /-- No host has no name. -/
  hostname_nil : net.hostname [] = []
  /-- The host of a parsed URL ends before a slash, a question mark or a number sign,
  and begins after an at sign. -/
  host : ∀ {raw u}, net.parse raw = some u →
    ∀ c ∈ net.escapeHost u.host, c ≠ slash ∧ c ≠ 0x3f ∧ c ≠ 0x23 ∧ c ≠ 0x40
  /-- A host is written with at least as many characters as it has. -/
  length_host : ∀ host, host.length ≤ (net.escapeHost host).length
  /-- `String`, of a URL with a scheme, a host, and no user, path and fragment. -/
  string : ∀ {u : URL}, u.scheme ≠ [] → u.user = none → u.host ≠ [] → u.path = [] →
    u.fragment = [] → net.string u = u.scheme ++ .lit "://" ++ net.escapeHost u.host ++ u.query
  /-- What `String` writes of a parsed URL without its path is valid. -/
  valid : ∀ {raw u}, net.parse raw = some u → u.scheme ≠ [] → u.user = none → u.host ≠ [] →
    u.rawQuery = [] → u.fragment = [] →
    net.parse (net.string u.withoutPath) = some u.withoutPath

variable (net : Net)

/-! ## The source -/

/-- `IP.IsLoopback`. -/
def IP.isLoopback (address : IP) : Bool :=
  if address.take 12 = List.replicate 10 0 ++ [0xff, 0xff] then address[12]? == some 127
  else address = List.replicate 15 0 ++ [1]

/-- `isLoopback`. -/
def isLoopback (host : Str) : Bool :=
  if (runes host).map foldRune = (Str.lit "localhost").map UInt8.toNat then true
  else
    match net.parseIP host with
    | none => false
    | some address => IP.isLoopback address

/-- The checks of the scheme and, for development, of the host. -/
def checkScheme (parsed : URL) (development : Bool) : Option Err :=
  if development then
    if parsed.scheme ≠ .lit "http" ∧ parsed.scheme ≠ .lit "https" then
      some (.new "r2: development endpoint must use HTTP or HTTPS" [])
    else if !isLoopback net (net.hostname parsed.host) then
      some (.new "r2: development endpoint must use loopback" [])
    else none
  else if parsed.scheme ≠ .lit "https" then some (.new "r2: endpoint must use HTTPS" [])
  else none

/-- `validateEndpoint`. -/
def validateEndpoint (raw : Str) (development : Bool) : Except Err Str :=
  match net.parse raw with
  | none => .error (.new "r2: endpoint must be an absolute URL" [])
  | some parsed =>
    if net.hostname parsed.host = [] then .error (.new "r2: endpoint must be an absolute URL" [])
    else if parsed.user ≠ none then .error (.new "r2: endpoint must not contain credentials" [])
    else if parsed.rawQuery ≠ [] ∨ parsed.fragment ≠ [] then
      .error (.new "r2: endpoint must not contain a query or fragment" [])
    else if parsed.path ≠ [] ∧ parsed.path ≠ [slash] then
      .error (.new "r2: endpoint must not contain a path" [])
    else
      match checkScheme net parsed development with
      | some err => .error err
      | none => .ok (S3.trimSlash (net.string parsed.withoutPath))

/-! ## What is accepted -/

structure Acceptable (development : Bool) (u : URL) : Prop where
  name : net.hostname u.host ≠ []
  user : u.user = none
  rawQuery : u.rawQuery = []
  fragment : u.fragment = []
  path : u.path = [] ∨ u.path = [slash]
  scheme : checkScheme net u development = none

variable {net} {raw e : Str} {development : Bool} {u : URL}

theorem validateEndpoint_eq_ok :
    validateEndpoint net raw development = .ok e ↔ ∃ u, net.parse raw = some u ∧
      Acceptable net development u ∧ S3.trimSlash (net.string u.withoutPath) = e := by
  unfold validateEndpoint
  cases net.parse raw with
  | none => simp
  | some u =>
      simp only [Option.some.injEq, exists_eq_left']
      constructor
      · intro h
        split_ifs at h with hname huser hquery hpath
        cases hscheme : checkScheme net u development with
        | some err => rw [hscheme] at h; contradiction
        | none =>
            rw [hscheme] at h
            exact ⟨⟨hname, not_not.mp huser, not_not.mp (not_or.mp hquery).1,
              not_not.mp (not_or.mp hquery).2, by tauto, hscheme⟩, Except.ok.inj h⟩
      · rintro ⟨h, rfl⟩
        rw [if_neg h.name, if_neg (not_not.mpr h.user), if_neg (by simp [h.rawQuery, h.fragment]),
          if_neg (by have := h.path; tauto), h.scheme]

theorem checkScheme_eq_none : checkScheme net u development = none ↔
    (u.scheme = .lit "https" ∨ development = true ∧ u.scheme = .lit "http") ∧
      (development = true → isLoopback net (net.hostname u.host) = true) := by
  unfold checkScheme
  cases development with
  | false => simp
  | true =>
      by_cases hhttp : u.scheme = .lit "http" <;> by_cases hhttps : u.scheme = .lit "https" <;>
        simp [hhttp, hhttps]

namespace Acceptable

variable (hdoc : net.Documented) (h : Acceptable net development u)

include hdoc h in
theorem host_ne_nil : u.host ≠ [] := by
  intro hnil
  refine h.name ?_
  rw [hnil, hdoc.hostname_nil]

include h in
theorem scheme_ne_nil : u.scheme ≠ [] := by
  rcases (checkScheme_eq_none.mp h.scheme).1 with hscheme | ⟨-, hscheme⟩
  · rw [hscheme]; decide
  · rw [hscheme]; decide

/-- Without its path it still passes. -/
theorem withoutPath (h : Acceptable net development u) :
    Acceptable net development u.withoutPath :=
  ⟨h.name, h.user, h.rawQuery, h.fragment, .inl rfl, h.scheme⟩

include hdoc h in
/-- The endpoint is the scheme, the host and possibly a question mark. -/
theorem string_eq : net.string u.withoutPath =
    u.scheme ++ .lit "://" ++ net.escapeHost u.host ++ if u.forceQuery then [0x3f] else [] := by
  have hquery : u.withoutPath.query = if u.forceQuery then [0x3f] else [] := by
    simp [URL.query, URL.withoutPath, h.rawQuery]
  have hhost := h.host_ne_nil hdoc
  rw [← hquery]
  exact hdoc.string h.scheme_ne_nil h.user hhost rfl h.fragment

include hdoc h in
/-- It does not end with a slash. -/
theorem trimSlash_eq (hparse : net.parse raw = some u) :
    S3.trimSlash (net.string u.withoutPath) = net.string u.withoutPath := by
  rw [S3.trimSlash, if_neg]
  rw [h.string_eq hdoc]
  cases u.forceQuery with
  | true => simp [slash]
  | false =>
      have hne : net.escapeHost u.host ≠ [] := by
        have hlength := hdoc.length_host u.host
        have hpos := List.length_pos_iff.mpr (h.host_ne_nil hdoc)
        exact List.ne_nil_of_length_pos (by omega)
      intro hlast
      simp only [Bool.false_eq_true, if_false, List.append_nil] at hlast
      rw [List.getLast?_append_of_ne_nil _ hne] at hlast
      exact (hdoc.host hparse slash (List.mem_of_getLast? hlast)).1 rfl

end Acceptable

/-! ## Plain URLs -/

def isHostByte (c : UInt8) : Bool :=
  isAsciiLetter c || (0x30 ≤ c && c ≤ 0x39) || c == 0x2e || c == 0x2d

/-- The last byte off a string, if it is `c`. -/
def trimLast (c : UInt8) (s : Str) : Str × Bool :=
  if s.getLast? = some c then (s.dropLast, true) else (s, false)

/-- Packages that know URLs of one scheme, a name, at most a slash and at most a
question mark, and no addresses. -/
def plainNet : Net where
  parse raw :=
    match cutPrefix (.lit "https://") raw with
    | none => none
    | some rest =>
      let (rest, forceQuery) := trimLast 0x3f rest
      let (host, rooted) := trimLast slash rest
      if host ≠ [] ∧ host.all isHostByte then
        some { scheme := .lit "https", host, path := if rooted then [slash] else [], forceQuery }
      else none
  hostname := id
  escapeHost := id
  string u := u.scheme ++ .lit "://" ++ (match u.user with
    | none => []
    | some user => user ++ [0x40]) ++ u.host ++ u.path ++ u.query
  parseIP _ := none

theorem isHostByte_ne {c : UInt8} (h : isHostByte c = true) :
    c ≠ slash ∧ c ≠ 0x3f ∧ c ≠ 0x23 ∧ c ≠ 0x40 := by
  refine ⟨?_, ?_, ?_, ?_⟩
  all_goals
    rintro rfl
    exact absurd h (by decide)

/-- What a parsed plain URL looks like. -/
theorem parse_plainNet (h : plainNet.parse raw = some u) :
    u.scheme = .lit "https" ∧ u.host ≠ [] ∧ ∀ c ∈ u.host, isHostByte c = true := by
  simp only [plainNet] at h
  split at h
  · contradiction
  · split at h
    · rename_i hhost
      cases h
      exact ⟨rfl, hhost.1, List.all_eq_true.mp hhost.2⟩
    · contradiction

theorem trimLast_of_notMem {c : UInt8} {s : Str} (h : c ∉ s) : trimLast c s = (s, false) :=
  if_neg fun hlast ↦ h (List.mem_of_getLast? hlast)

/-- A name parses, with a question mark or without. -/
theorem plainNet_parse_name {host : Str} (hne : host ≠ []) (hhost : ∀ c ∈ host, isHostByte c = true)
    (forceQuery : Bool) :
    plainNet.parse (.lit "https://" ++ host ++ if forceQuery then [0x3f] else []) =
      some { scheme := .lit "https", host, forceQuery } := by
  have hslash : slash ∉ host := fun hmem ↦ (isHostByte_ne (hhost _ hmem)).1 rfl
  have hquery : (0x3f : UInt8) ∉ host := fun hmem ↦ (isHostByte_ne (hhost _ hmem)).2.1 rfl
  have hcut : cutPrefix (.lit "https://")
      (.lit "https://" ++ host ++ if forceQuery then [0x3f] else []) =
        some (host ++ if forceQuery then [0x3f] else []) := by
    rw [cutPrefix_eq_some, List.append_assoc]
  have htrim : trimLast 0x3f (host ++ if forceQuery then [0x3f] else []) = (host, forceQuery) := by
    cases forceQuery with
    | true => simp [trimLast]
    | false =>
        rw [if_neg Bool.false_ne_true, List.append_nil]
        exact trimLast_of_notMem hquery
  simp only [plainNet]
  rw [hcut]
  dsimp only
  rw [htrim]
  dsimp only
  rw [trimLast_of_notMem hslash, if_pos ⟨hne, List.all_eq_true.mpr hhost⟩]
  rfl

theorem documented_plainNet : plainNet.Documented where
  hostname_nil := rfl
  host h c hc := isHostByte_ne ((parse_plainNet h).2.2 c hc)
  length_host _ := le_rfl
  string {u} _ huser _ hpath _ := by
    simp only [plainNet, huser, hpath, List.append_nil, id]
  valid {raw u} h _ huser _ hquery hfragment := by
    obtain ⟨hscheme, hne, hhost⟩ := parse_plainNet h
    have hmark : u.withoutPath.query = if u.forceQuery then [0x3f] else [] := by
      simp [URL.query, URL.withoutPath, hquery]
    have hstring : plainNet.string u.withoutPath =
        .lit "https://" ++ u.host ++ if u.forceQuery then [0x3f] else [] := by
      rw [← hmark]
      simp only [plainNet, URL.withoutPath, huser, hscheme, List.append_nil]
      rfl
    rw [hstring, plainNet_parse_name hne hhost]
    simp only [URL.withoutPath, huser, hscheme, hquery, hfragment]

/-! ## Normal endpoints -/

/-- A scheme and an authority and nothing else, of which validation changes
nothing. -/
structure Normal (net : Net) (development : Bool) (e : Str) : Prop where
  noQuery : 0x3f ∉ e
  noFragment : 0x23 ∉ e
  noUser : 0x40 ∉ e
  parts : ∃ u authority, net.parse e = some u ∧ e = u.scheme ++ .lit "://" ++ authority ∧
    slash ∉ authority ∧ (u.scheme = .lit "https" ∨
      development = true ∧ isLoopback net (net.hostname u.host) = true)
  fixed : validateEndpoint net e development = .ok e

/-- What is accepted is normal but for a question mark: it has one exactly if the
URL forces a query. -/
theorem validateEndpoint_normal_iff (hdoc : net.Documented)
    (h : validateEndpoint net raw development = .ok e) (hparse : net.parse raw = some u) :
    Normal net development e ↔ u.forceQuery = false := by
  obtain ⟨u', hparse', haccept, rfl⟩ := validateEndpoint_eq_ok.mp h
  cases hparse.symm.trans hparse'
  have hschemes := (checkScheme_eq_none.mp haccept.scheme).1
  have hvalid := hdoc.valid hparse haccept.scheme_ne_nil haccept.user (haccept.host_ne_nil hdoc)
    haccept.rawQuery haccept.fragment
  have hfixed := haccept.withoutPath.trimSlash_eq hdoc hvalid
  rw [haccept.trimSlash_eq hdoc hparse]
  constructor
  · intro hnormal
    have hquery := hnormal.noQuery
    rw [haccept.string_eq hdoc] at hquery
    cases hforce : u.forceQuery with
    | false => rfl
    | true => simp [hforce] at hquery
  · intro hforce
    have hstring : net.string u.withoutPath =
        u.scheme ++ .lit "://" ++ net.escapeHost u.host := by
      rw [haccept.string_eq hdoc, hforce, if_neg Bool.false_ne_true, List.append_nil]
    have hhost := hdoc.host hparse
    have hscheme : ∀ c ∈ u.scheme ++ Str.lit "://", c ≠ 0x3f ∧ c ≠ 0x23 ∧ c ≠ 0x40 := by
      rcases hschemes with hs | ⟨-, hs⟩
      · rw [hs]; decide +kernel
      · rw [hs]; decide +kernel
    refine ⟨?_, ?_, ?_, ⟨_, net.escapeHost u.host, hvalid, hstring, ?_, ?_⟩, ?_⟩
    · rw [hstring, List.mem_append]
      rintro (hmem | hmem)
      exacts [(hscheme _ hmem).1 rfl, (hhost _ hmem).2.1 rfl]
    · rw [hstring, List.mem_append]
      rintro (hmem | hmem)
      exacts [(hscheme _ hmem).2.1 rfl, (hhost _ hmem).2.2.1 rfl]
    · rw [hstring, List.mem_append]
      rintro (hmem | hmem)
      exacts [(hscheme _ hmem).2.2 rfl, (hhost _ hmem).2.2.2 rfl]
    · exact fun hmem ↦ (hhost _ hmem).1 rfl
    · obtain ⟨hscheme, hloopback⟩ := checkScheme_eq_none.mp haccept.scheme
      rcases hscheme with hs | ⟨hdevelopment, -⟩
      · exact .inl hs
      · exact .inr ⟨hdevelopment, hloopback hdevelopment⟩
    · exact validateEndpoint_eq_ok.mpr ⟨_, hvalid, haccept.withoutPath, hfixed⟩

/-- A name with a slash after it. -/
theorem validateEndpoint_plain :
    validateEndpoint plainNet (.lit "https://r2.example.test/") false =
        .ok (.lit "https://r2.example.test") ∧
      Normal plainNet false (.lit "https://r2.example.test") := by
  have hvalid : validateEndpoint plainNet (.lit "https://r2.example.test/") false =
      .ok (.lit "https://r2.example.test") := by decide +kernel
  have hparse : plainNet.parse (.lit "https://r2.example.test/") =
      some { scheme := .lit "https", host := .lit "r2.example.test", path := [slash] } := by
    decide +kernel
  exact ⟨hvalid, (validateEndpoint_normal_iff documented_plainNet hvalid hparse).mpr rfl⟩

/-- A name with a question mark after it is accepted, and the question mark stays. -/
theorem validateEndpoint_forced :
    validateEndpoint plainNet (.lit "https://h?") false = .ok (.lit "https://h?") ∧
      ¬Normal plainNet false (.lit "https://h?") := by
  refine ⟨by decide +kernel, fun h ↦ h.noQuery (by decide +kernel)⟩

end GoFilesystem.R2
