import GoFilesystem.Contracts
import Mathlib.Data.List.Sort

/-!
# Listing a bucket

The listing of the S3 adapter (`s3/s3.go`): the two translations between keys
and paths, and the loop of `List` over the pages of `ListObjectsV2`.

The service is anything that answers requests from a state of its own, so an
answer may depend on everything asked before.  Nothing bounds the number of
pages a service sends, and the loop of the source has no other bound either;
`Loop.run` runs it for a given number of pages.  Before it, `List` makes a slice with
room for as many entries as it may return, which no machine has for every limit.

Fields of the SDK are pointers that the source reads with `aws.ToString` and its
relatives, which read a nil pointer as a zero value; they are values here, except
for the continuation token, which the source compares with nil.
-/

namespace GoFilesystem.S3

open Go

/-- `types.Object`, as far as a listing reads it. -/
structure Object where
  key : Str
  size : Nat := 0
  lastModified : Time := 0
deriving DecidableEq

/-- `ListObjectsV2Output`. -/
structure Output where
  contents : List Object := []
  commonPrefixes : List Str := []
  isTruncated : Bool := false
  nextContinuationToken : Option Str := none

/-- `ListObjectsV2Input`. -/
structure Input where
  bucket : Str
  keyPrefix : Option Str
  maxKeys : Int
  delimiter : Option Str
  continuationToken : Option Str := none

/-- An error of the SDK: its tree, and the code of the first `smithy.APIError`
in it. -/
structure ServiceError where
  err : Err
  code : Option Str := none

/-- What a service with state `σ` answers to `ListObjectsV2`. -/
abbrev Service (σ : Type) := σ → Input → Except ServiceError Output × σ

/-- The fields of the adapter that `List` reads, with what `newAdapter` and
`WithMaxListEntries` check of them; no prefix is the root. -/
structure Adapter where
  bucket : Str
  prefixPath : Path := .root
  maxList : Int := 10000
  maxList_pos : 0 < maxList := by decide

/-- `key`. -/
def Adapter.key (a : Adapter) (logicalPath : Path) : Str :=
  if a.prefixPath.value = [] then logicalPath.value
  else a.prefixPath.value ++ slash :: logicalPath.value

/-- `strings.TrimSuffix(key, "/")`. -/
def trimSlash (key : Str) : Str :=
  if key.getLast? = some slash then key.dropLast else key

/-- `logicalPath`; `none` where the source returns false. -/
def Adapter.logicalPath (a : Adapter) (key : Str) (directory : Bool) : Option Path :=
  let key := if directory then trimSlash key else key
  if a.prefixPath.value = [] then (parsePath key).toOption
  else
    match cutPrefix (a.prefixPath.value ++ [slash]) key with
    | none => none
    | some key => (parsePath key).toOption

/-! ## Errors -/

/-- `redact.Error`: the text is sanitized, the cause stays in the tree. -/
def redactError (err : Err) : Err := .wrap "%s" [] err

/-- `mapError` of an error that is not nil. -/
def mapError (logicalPath : Path) (failure : ServiceError) : Err :=
  if failure.err.is .canceled then failure.err
  else if failure.err.is .deadlineExceeded then failure.err
  else
    match failure.code with
    | none => redactError failure.err
    | some code =>
      if code ∈ [Str.lit "NoSuchKey", .lit "NotFound", .lit "NoSuchBucket"] then
        .wrap "%w: %s" [logicalPath.value] (.sentinel .notFound)
      else if code = .lit "PreconditionFailed" then
        .wrap "%w: %s" [logicalPath.value] (.sentinel .preconditionFailed)
      else if code ∈ [Str.lit "InvalidRange", .lit "RequestedRangeNotSatisfiable"] then
        .wrap "%w: %s" [logicalPath.value] (.sentinel .invalidRange)
      else redactError failure.err

/-! ## The loop of `List` -/

/-- `effectiveListLimit`. -/
def effectiveListLimit (requested maximum : Int) : Int :=
  if requested = 0 then maximum else min requested maximum

/-- `int32(n)`. -/
def int32 (n : Int) : Int := n.bmod (2 ^ 32)

/-- `pageSize`. -/
def pageSize (limit collected : Int) : Int := int32 (min (limit - collected) 1000)

/-- `paginationComplete`. -/
def paginationComplete (output : Output) : Bool :=
  !output.isTruncated || output.nextContinuationToken.isNone

/-- `newIterator`: the entries by path.  `slices.SortFunc` is not stable; of the
order among equal paths no result below says anything. -/
def newIterator (entries : List Entry) : Listing where
  entries := entries.insertionSort fun left right ↦ left.path.value ≤ right.path.value

/-- The entry of an object, unless its key does not decode. -/
def Adapter.fileEntry (a : Adapter) (object : Object) : Option Entry :=
  (a.logicalPath object.key false).map fun path ↦
    { path, kind := .file, size := object.size, modified := object.lastModified }

/-- The entry of a common prefix, unless it does not decode. -/
def Adapter.directoryEntry (a : Adapter) (commonPrefix : Str) : Option Entry :=
  (a.logicalPath commonPrefix true).map fun path ↦ { path, kind := .directory }

/-- The loops over the objects and over the common prefixes of a page: what
does not decode is passed over, and the listing is full as soon as it has reached
its limit. -/
def collect {α : Type} (limit : Int) (entryOf : α → Option Entry) :
    List α → List Entry → List Entry × Bool
  | [], entries => (entries, false)
  | item :: items, entries =>
    match entryOf item with
    | none => collect limit entryOf items entries
    | some entry =>
      let entries := entries ++ [entry]
      if entries.length ≥ limit then (entries, true) else collect limit entryOf items entries

/-- The state of the loop before a request: the service, the request, and the
entries collected so far. -/
structure Loop (σ : Type) where
  service : σ
  input : Input
  entries : List Entry := []

section Loop

variable {σ : Type} (a : Adapter) (serve : Service σ) (directory : Path) (limit : Int)

/-- One page: the next state of the loop, or what `List` returns. -/
def Loop.step (loop : Loop σ) : Loop σ ⊕ Except Err Listing :=
  match serve loop.service loop.input with
  | (.error failure, _) => .inr (.error (mapError directory failure))
  | (.ok output, service) =>
    match collect limit a.fileEntry output.contents loop.entries with
    | (entries, true) => .inr (.ok (newIterator entries))
    | (entries, false) =>
      match collect limit a.directoryEntry output.commonPrefixes entries with
      | (entries, true) => .inr (.ok (newIterator entries))
      | (entries, false) =>
        if paginationComplete output then .inr (.ok (newIterator entries))
        else
          .inl {
            service, entries
            input := { loop.input with
              continuationToken := output.nextContinuationToken
              maxKeys := pageSize limit entries.length } }

/-- The loop, for at most `fuel` pages. -/
def Loop.run : Nat → Loop σ → Option (Except Err Listing)
  | 0, _ => none
  | fuel + 1, loop =>
    match loop.step a serve directory limit with
    | .inr result => some result
    | .inl next => next.run fuel

/-- The states in which the loop sends a request, for at most `fuel` pages. -/
def Loop.requests : Nat → Loop σ → List (Loop σ)
  | 0, _ => []
  | fuel + 1, loop =>
    loop :: match loop.step a serve directory limit with
      | .inr _ => []
      | .inl next => next.requests fuel

end Loop

/-- The prefix of the keys that `List` asks for. -/
def Adapter.listPrefix (a : Adapter) (directory : Path) : Str :=
  let keyPrefix := if directory.isRoot then a.prefixPath.value else a.key directory
  if keyPrefix = [] then keyPrefix else keyPrefix ++ [slash]

/-- `optionalString`. -/
def optionalString (value : Str) : Option Str := if value = [] then none else some value

def Adapter.limit (a : Adapter) (options : ListOptions) : Int :=
  effectiveListLimit options.limit a.maxList

def Adapter.firstInput (a : Adapter) (directory : Path) (options : ListOptions) : Input where
  bucket := a.bucket
  keyPrefix := optionalString (a.listPrefix directory)
  maxKeys := int32 (min (a.limit options) 1000)
  delimiter := if options.recursive then none else some [slash]

/-- The loop when it is entered. -/
def Adapter.start {σ : Type} (a : Adapter) (service : σ) (directory : Path)
    (options : ListOptions) : Loop σ where
  service := service
  input := a.firstInput directory options

/-- `List`, for at most `fuel` pages, where `make` panics on a capacity above `maxCap`. -/
def Adapter.list {σ : Type} (a : Adapter) (maxCap : Int) (serve : Service σ) (fuel : Nat)
    (service : σ) (directory : Path) (options : ListOptions) : Option (Except Err Listing) :=
  if options.limit < 0 then some (.error (.new "s3: list limit must not be negative" []))
  else if maxCap < a.limit options then none
  else (a.start service directory options).run a serve directory (a.limit options) fuel

/-- The requests that `List` sends, for at most `fuel` pages. -/
def Adapter.requests {σ : Type} (a : Adapter) (maxCap : Int) (serve : Service σ) (fuel : Nat)
    (service : σ) (directory : Path) (options : ListOptions) : List (Loop σ) :=
  if options.limit < 0 ∨ maxCap < a.limit options then []
  else (a.start service directory options).requests a serve directory (a.limit options) fuel

/-! ## Items -/

inductive Item where
  | object (o : Object)
  | commonPrefix (value : Str)
deriving DecidableEq

/-- The items of a page, in the order in which `List` visits them. -/
def Output.items (output : Output) : List Item :=
  output.contents.map .object ++ output.commonPrefixes.map .commonPrefix

def Item.key : Item → Str
  | object o => o.key
  | commonPrefix value => value

/-- The entry that `List` makes of an item. -/
def Adapter.entryOf (a : Adapter) : Item → Option Entry
  | .object object => a.fileEntry object
  | .commonPrefix value => a.directoryEntry value

def received {σ : Type} (serve : Service σ) (requests : List (Loop σ)) : List Item :=
  requests.flatMap fun loop ↦
    match (serve loop.service loop.input).1 with
    | .error _ => []
    | .ok output => output.items

/-! ## What one page does -/

section Page

variable {α β : Type} {limit : Int} {entries : List Entry}

/-- Without the early return, everything that decodes is collected. -/
theorem collect_eq (entryOf : α → Option Entry) (items : List α) (h : entries.length < limit) :
    collect limit entryOf items entries =
      if ((entries ++ items.filterMap entryOf).length : Int) < limit then
        (entries ++ items.filterMap entryOf, false)
      else ((entries ++ items.filterMap entryOf).take limit.toNat, true) := by
  induction items generalizing entries with
  | nil => simp [collect, h]
  | cons item items ih =>
      unfold collect
      cases hentry : entryOf item with
      | none =>
          rw [List.filterMap_cons_none hentry]
          exact ih h
      | some entry =>
          have happend : entries ++ (item :: items).filterMap entryOf =
              (entries ++ [entry]) ++ items.filterMap entryOf := by
            rw [List.filterMap_cons_some hentry, List.append_assoc]
            rfl
          rw [happend]
          dsimp only
          by_cases hfull : ((entries ++ [entry]).length : Int) ≥ limit
          · have hlength : limit.toNat = (entries ++ [entry]).length := by
              simp only [List.length_append, List.length_singleton] at hfull ⊢
              omega
            rw [if_pos hfull, if_neg, hlength, List.take_left]
            simp only [List.length_append] at hfull ⊢
            omega
          · rw [if_neg hfull]
            exact ih (by omega)

theorem filterMap_items (a : Adapter) (output : Output) :
    output.items.filterMap a.entryOf =
      output.contents.filterMap a.fileEntry ++
        output.commonPrefixes.filterMap a.directoryEntry := by
  unfold Output.items
  rw [List.filterMap_append, List.filterMap_map, List.filterMap_map]
  rfl

variable {σ : Type} (a : Adapter) {serve : Service σ} (directory : Path) {loop : Loop σ}

/-- One page adds what decodes on it, up to the limit. -/
theorem step_eq {output : Output} {service : σ}
    (hserve : serve loop.service loop.input = (.ok output, service))
    (h : loop.entries.length < limit) :
    loop.step a serve directory limit =
      if limit ≤ (loop.entries ++ output.items.filterMap a.entryOf).length ∨
          paginationComplete output = true then
        .inr (.ok (newIterator
          ((loop.entries ++ output.items.filterMap a.entryOf).take limit.toNat)))
      else
        .inl {
          service
          entries := loop.entries ++ output.items.filterMap a.entryOf
          input := { loop.input with
            continuationToken := output.nextContinuationToken
            maxKeys := pageSize limit
              (loop.entries ++ output.items.filterMap a.entryOf).length } } := by
  rw [filterMap_items, ← List.append_assoc]
  unfold Loop.step
  rw [hserve]
  dsimp only
  rw [collect_eq a.fileEntry output.contents h]
  generalize hfiles : loop.entries ++ output.contents.filterMap a.fileEntry = files
  by_cases hroom : (files.length : Int) < limit
  · rw [if_pos hroom]
    dsimp only
    rw [collect_eq a.directoryEntry output.commonPrefixes hroom]
    by_cases hall :
        ((files ++ output.commonPrefixes.filterMap a.directoryEntry).length : Int) < limit
    · have hlength : (files ++ output.commonPrefixes.filterMap a.directoryEntry).length ≤
          limit.toNat := by omega
      rw [if_pos hall, List.take_of_length_le hlength]
      dsimp only
      by_cases hcomplete : paginationComplete output = true
      · rw [if_pos hcomplete, if_pos (.inr hcomplete)]
      · rw [if_neg hcomplete, if_neg (by rintro (hle | hc); exacts [by omega, hcomplete hc])]
    · rw [if_neg hall, if_pos (.inl (by omega))]
  · have hle : limit ≤ (files ++ output.commonPrefixes.filterMap a.directoryEntry).length := by
      rw [List.length_append]
      omega
    have htake : (files ++ output.commonPrefixes.filterMap a.directoryEntry).take limit.toNat =
        files.take limit.toNat := by
      rw [List.take_append_of_le_length (by omega)]
    rw [if_neg hroom, if_pos (.inl hle), htake]

end Page

end GoFilesystem.S3
