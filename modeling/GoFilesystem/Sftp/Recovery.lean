import GoFilesystem.Remote.Recovery
import GoFilesystem.Sftp.Sessions

/-!
# What becomes of a dead session of the SFTP adapter

`withSession` with `retry` gives up a session whose connection is lost and goes on
with a new one.  `Write`, `Delete` and `Move` are not repeated, and they leave the
session where it is.  A file belongs to the session that opened it, so none belongs
to a session that was dead when it was asked for one.
-/

namespace GoFilesystem.Sftp

open Go Conc Recovery

def sessionEvent : (c : Cmd) → c.Resp → Recovery.Event
  | .ctxErr _, (r : Option CtxErr) => if r.isSome then .refuse else .other
  | .ctxDone _, (r : Bool) => if r then .refuse else .other
  | .readFile file _, _ | .writeFile file _, _ | .sync file, _ | .closeFile file, _ =>
    .touch file.session
  | .start _ _ file _, _ => .keep file.session
  | .useStream _, (r : Ctx × File × Option Nat) => .find r.2.1.session
  | c, r => .ofSlot (event c r)

/-- The session of the adapter, and those of its streams. -/
def State.resources (s : State) : Recovery.Shared where
  slot := s.session
  made := s.dialed
  kept session := ∃ n, (s.streams n).started = true ∧ (s.streams n).file.session = session

theorem kept_modifyStream {s : State} {n : StreamId} {f : Stream → Stream}
    (hstarted : (f (s.streams n)).started = (s.streams n).started)
    (hfile : (f (s.streams n)).file = (s.streams n).file) :
    (s.modifyStream n f).resources.kept = s.resources.kept := by
  funext session
  refine propext (exists_congr fun m ↦ ?_)
  dsimp only [State.modifyStream]
  by_cases hm : m = n
  · rw [hm, Function.update_self, hstarted, hfile]
  · rw [Function.update_of_ne hm]

def resources : Reading machine where
  event := sessionEvent
  view := State.resources
  acts t c r s s' h := by
    have happly : apply t c r s = some s' := h
    have hslot := sessions.act_of_apply t c r s s' h
    cases c with
    | ctxErr | ctxDone =>
        obtain ⟨-, rfl⟩ := of_ite_some happly
        exact .ask rfl
    | start n ctx file limit =>
        obtain ⟨-, rfl⟩ := of_ite_none happly
        refine ⟨rfl, Nat.le_refl _, ?_, nofun, nofun, nofun⟩
        rintro k ⟨m, hstarted, hsession⟩
        dsimp only [State.modifyStream] at hstarted hsession
        by_cases hm : m = n
        · subst hm
          rw [Function.update_self] at hsession
          exact .inr (congrArg Recovery.Event.keep hsession)
        · rw [Function.update_of_ne hm] at hstarted hsession
          exact .inl ⟨m, hstarted, hsession⟩
    | useStream n =>
        obtain ⟨⟨hstarted, hr⟩, rfl⟩ := of_ite_some happly
        refine ⟨rfl, Nat.le_refl _, fun _ hk ↦ .inl hk, nofun, nofun, fun k hk ↦ ?_⟩
        cases hk
        exact ⟨n, hstarted, by rw [hr]⟩
    | writeFile | sync | closeFile =>
        cases happly
        exact .of_eq (.inr (.inr (.inr (.inl ⟨_, rfl⟩)))) rfl
    | readFile =>
        obtain ⟨-, rfl⟩ := of_ite_some happly
        exact .of_eq (.inr (.inr (.inr (.inl ⟨_, rfl⟩)))) rfl
    | lock | unlock | beginWatch | select | loadCloseErr | loadClosed | loadSession =>
        obtain ⟨-, rfl⟩ := of_ite_some happly
        exact .ofSlot hslot rfl
    | connect ctx =>
        cases r with
        | error err =>
            cases happly
            exact .ofSlot hslot rfl
        | ok session =>
            obtain ⟨-, rfl⟩ := of_ite_some happly
            exact .ofSlot hslot rfl
    | onceDo n =>
        dsimp only [apply] at happly
        split at happly
        · cases happly
          exact .ofSlot hslot (kept_modifyStream rfl rfl)
        · cases happly
          exact .ofSlot hslot rfl
        · contradiction
    | consume | onceDone | closeDone | storeCloseErr =>
        cases happly
        exact .ofSlot hslot (kept_modifyStream rfl rfl)
    | _ =>
        cases happly
        exact .ofSlot hslot rfl

variable {a : Adapter} {d : Nat} {k : Know} {source : Prog sig (Str × Option Err)}

theorem traced : client.Traced resources where
  event_eq c r := by cases c <;> rfl
  readDir d k ctx session name := by
    refine Reading.tracks_use (fun _ ↦ rfl) fun r hfailed ↦ ⟨rfl, rfl, rfl, fun hd ↦ ?_⟩
    have hbroken := hfailed.trans (decide_eq_true hd)
    cases r with
    | error err => exact ⟨err, rfl, hbroken⟩
    | ok infos => contradiction

/-! ## Operations that are repeated -/

variable (n : StreamId) (ctx : Ctx) (path : Path)

/-- The result of an operation, and what is known of it beside. -/
theorem openFile_tracks (session : Session) :
    resources.Tracks d (openFile a path session) k fun r k' ↦
      k.Worked isConnectionError d session r k' ∧ ∀ file ∈ r.toOption, file.session = session := by
  refine (traced.rejectLinks_tracks session _).bind ?_
  rintro (_ | err) k₁ hk₁
  · refine .use (fun _ ↦ rfl) ?_
    rintro (err | handle) hfailed
    · refine .ret ⟨⟨hk₁.sure, hk₁.gone, rfl, fun hd ↦ ⟨err, rfl, ?_⟩⟩, nofun⟩
      exact hfailed.trans (decide_eq_true hd)
    · refine .ret ⟨⟨hk₁.sure, hk₁.gone, rfl, fun hd ↦ ?_⟩, fun file hfile ↦ ?_⟩
      · exact absurd hd (of_decide_eq_false hfailed.symm)
      · exact Option.some.inj hfile ▸ rfl
  · exact .ret ⟨hk₁.worked, nofun⟩

theorem openFileAt_tracks (offset : Int) (session : Session) :
    resources.Tracks d (openFileAt a path offset session) k fun r k' ↦
      k.Worked isConnectionError d session r k' ∧ ∀ file ∈ r.toOption, file.session = session := by
  refine (openFile_tracks path session).bind ?_
  rintro (err | opened) k₁ ⟨hk₁, hfile⟩
  · exact .ret ⟨⟨hk₁.sure, hk₁.gone, hk₁.used, hk₁.dead⟩, nofun⟩
  · have hne := hk₁.ne_of_ok
    obtain rfl := hfile opened rfl
    refine .use (fun _ ↦ rfl) ?_
    rintro (_ | err) -
    · refine .ret ⟨⟨hk₁.sure, hk₁.gone, rfl, fun hd ↦ absurd hd hne⟩, fun file hfile ↦ ?_⟩
      exact Option.some.inj hfile ▸ rfl
    · refine .touch (fun _ ↦ rfl) fun _ ↦ .ret ⟨⟨hk₁.sure, hk₁.gone, rfl, ?_⟩, nofun⟩
      exact fun hd ↦ absurd hd hne

theorem stat_tracks : resources.Tracks d (stat a ctx path) k fun _ k' ↦ k.Recovered d k' := by
  refine (traced.withSession_recovered ctx fun session _ ↦
    traced.checkedStat_tracks a.root path session).bind ?_
  rintro (err | info) k' hk'
  · exact .ret hk'
  · exact .ret hk'

theorem list_tracks (directory : Path) (options : ListOptions) :
    resources.Tracks d (list a ctx directory options) k fun _ k' ↦
      (options.limit < 0 ∧ k' = k) ∨ k.Recovered d k' := by
  unfold list
  split
  · rename_i hlimit
    exact .ret (.inl ⟨hlimit, rfl⟩)
  · refine (traced.withSession_recovered ctx fun session _ ↦
      traced.listTree_tracks a.root ctx directory options.recursive _ session).bind ?_
    rintro (err | entries) k' hk'
    · exact .ret (.inr hk')
    · exact .ret (.inr hk')

/-- What is kept of a file that has been opened. -/
theorem start_tracks {file : File} (limit : Option Nat) (hfile : file.session ≠ d) {k' : Know}
    (hk' : k.Recovered d k') :
    resources.Tracks d (do
      perform (.start n ctx file limit)
      return none : Prog sig (Option Err)) k' fun _ k'' ↦ k.Recovered d k'' :=
  .keep (fun _ ↦ rfl) hfile fun _ ↦ .ret hk'

theorem openStream_tracks :
    resources.Tracks d (openStream a n ctx path) k fun _ k' ↦ k.Recovered d k' := by
  refine (traced.withSession_recovers ctx fun session _ ↦ openFile_tracks path session).bind ?_
  rintro (err | file) k' ⟨hk', session, hne, hfile⟩
  · exact .ret hk'
  · exact start_tracks n ctx none (hfile file rfl ▸ hne) hk'

theorem openRange_tracks (byteRange : ByteRange) :
    resources.Tracks d (openRange a n ctx path byteRange) k fun _ k' ↦
      (validByteRange byteRange = false ∧ k' = k) ∨ k.Recovered d k' := by
  unfold openRange
  split
  · rename_i hinvalid
    exact .ret (.inl ⟨by simpa using hinvalid, rfl⟩)
  · refine Reading.Tracks.mono (Q := fun _ k' ↦ k.Recovered d k') ?_ fun _ _ h ↦ .inr h
    refine (traced.withSession_recovers ctx fun session _ ↦
      openFileAt_tracks path byteRange.offset session).bind ?_
    rintro (err | file) k' ⟨hk', session, hne, hfile⟩
    · exact .ret hk'
    · exact start_tracks n ctx _ (hfile file rfl ▸ hne) hk'

/-! ## Streams -/

section Streams

variable {j : Nat}

/-- A use of a file that is not of the dead session. -/
theorem keeps_file {α : Type} {cmd : Cmd} {file : File} {f : cmd.Resp → Prog sig α}
    (hc : ∀ r, sessionEvent cmd r = .touch file.session) (hfile : file.session ≠ d)
    (hf : ∀ r, resources.Keeps d j (f r)) : resources.Keeps d j (perform cmd >>= f) := by
  refine fun k ↦ .touch hc fun r ↦ (hf r _).mono fun _ k' hk' ↦ Know.Stays.trans ?_ hk'
  exact ⟨rfl, rfl, fun _ _ heq ↦ hfile (Option.some.inj heq)⟩

/-- A stream has a file that is not of the dead session. -/
theorem keeps_useStream {α : Type} {n : StreamId} {f : Ctx × File × Option Nat → Prog sig α}
    (hf : ∀ ctx file limit, file.session ≠ d → resources.Keeps d j (f (ctx, file, limit))) :
    resources.Keeps d j (perform (.useStream n) >>= f) := by
  refine fun k ↦ .find (e := fun r : Ctx × File × Option Nat ↦ r.2.1.session) (fun _ ↦ rfl) ?_
  exact fun ⟨ctx, file, limit⟩ hne ↦ hf ctx file limit hne k

theorem contextRead_keeps {read : Prog sig (Str × Option Err)} (hread : resources.Keeps d j read) :
    resources.Keeps d j (contextRead ctx read) := by
  refine .step (Reading.only_ask (e := id) fun _ ↦ rfl) ?_
  rintro (_ | _)
  · exact hread
  · exact .step (Reading.only_ask fun _ ↦ rfl) fun _ ↦ .ret _

theorem read_keeps : resources.Keeps d j (read n) := by
  refine keeps_useStream fun ctx file limit hne ↦ ?_
  dsimp only
  split
  · exact .ret _
  · exact contextRead_keeps ctx (keeps_file (fun _ ↦ rfl) hne fun r ↦
      .step (fun _ ↦ trivial) fun _ ↦ .ret _)

theorem closeStream_keeps : resources.Keeps d j (closeStream n) := by
  refine keeps_useStream fun ctx file limit hne ↦ .step (fun _ ↦ trivial) ?_
  rintro (_ | _)
  · exact .command fun _ ↦ trivial
  · exact .step (fun _ ↦ trivial) fun _ ↦ keeps_file (fun _ ↦ rfl) hne fun err ↦
      .step (fun _ ↦ trivial) fun _ ↦ .step (fun _ ↦ trivial) fun _ ↦ .command fun _ ↦ trivial

theorem watch_keeps : resources.Keeps d j (watch n) := by
  refine .step (fun _ ↦ trivial) fun ctx ↦ .step (fun _ ↦ trivial) ?_
  rintro (_ | _)
  · exact .ret _
  · exact (closeStream_keeps n).bind fun _ ↦ .ret _

end Streams

/-! ## Operations that are not repeated -/

theorem rejectSymlinks_keeps (session : Session) (path : Path) (includeFinal : Bool) :
    resources.Keeps d session (rejectSymlinks a session path includeFinal) :=
  traced.rejectLinks_keeps session _

theorem copyNext_keeps (file : File) (hsource : resources.Keeps d file.session source) :
    resources.Keeps d file.session (copyNext ctx file source) := by
  refine (contextRead_keeps ctx hsource).bind fun ⟨data, readErr⟩ ↦ .check ?_ (fun _ ↦ .ret _) ?_
  · unfold writeFile
    split
    · exact .ret _
    · refine .step (fun _ ↦ rfl) ?_
      rintro ⟨written, _ | err⟩
      · exact .ret _
      · exact .ret _
  · cases readErr with
    | none => exact .ret _
    | some err => exact .ret _

theorem cleanup_keeps (file : File) (temporary : Str) (err : Err) :
    resources.Keeps d file.session (cleanup file temporary err) :=
  .step (fun _ ↦ rfl) fun _ ↦ .step (fun _ ↦ rfl) fun _ ↦ .ret _

theorem upload_keeps (session : Session) (path : Path) (temporary : Str)
    (hsource : resources.Keeps d session source) :
    resources.Keeps d session (upload a ctx session path temporary source) := by
  refine .step (fun _ ↦ rfl) ?_
  rintro (err | handle)
  · exact .ret _
  refine .check (.loop (fun _ ↦ copyNext_keeps ctx ⟨session, handle⟩ hsource) ())
    (cleanup_keeps ⟨session, handle⟩ temporary) ?_
  refine .check (.command (Reading.only_ask fun _ ↦ rfl))
    (fun err ↦ cleanup_keeps ⟨session, handle⟩ temporary err.err) ?_
  refine .step (fun _ ↦ rfl) fun synced ↦ ?_
  split
  · exact cleanup_keeps ⟨session, handle⟩ temporary _
  refine .check (.command fun _ ↦ rfl) (fun _ ↦ .step (fun _ ↦ rfl) fun _ ↦ .ret _) ?_
  refine .check ?_ (fun _ ↦ .step (fun _ ↦ rfl) fun _ ↦ .ret _) (.ret _)
  unfold publish
  split
  · exact .command fun _ ↦ rfl
  · exact .command fun _ ↦ rfl

/-- Whether `Write` is refused before anything is asked of the server. -/
def refusedWrite (path : Path) (options : WriteOptions) : Bool := path.isRoot || options.ifNoneMatch

theorem writeFrom_tracks (options : WriteOptions)
    (hsource : ∀ session, resources.Keeps d session source) :
    resources.Tracks d (writeFrom a ctx path source options) k fun _ k' ↦
      k.Careful d k' ∧ (refusedWrite path options = true → k' = k) := by
  have hsame : k.Careful d k := ⟨rfl, id, fun _ hused ↦ hused⟩
  unfold writeFrom
  split
  · exact .ret ⟨hsame, fun _ ↦ rfl⟩
  split
  · exact .ret ⟨hsame, fun _ ↦ rfl⟩
  rename_i hroot hmatch
  have hrefused : refusedWrite path options = true → False := by
    unfold refusedWrite
    rw [Bool.or_eq_true]
    exact fun h ↦ h.elim hroot hmatch
  refine Reading.Tracks.mono (Q := fun _ k' ↦ k.Careful d k') ?_
    fun _ _ hk' ↦ ⟨hk', fun h ↦ (hrefused h).elim⟩
  refine (traced.currentSession_tracks ctx).bind ?_
  rintro _ k₁ ⟨session, rfl, hk₁⟩
  refine (rejectSymlinks_keeps session path false k₁).bind ?_
  rintro (_ | err) k₂ hk₂
  · refine .use (fun _ ↦ rfl) fun found _ ↦ ?_
    have hk₃ := hk₂.trans (k₂.stays_use d session)
    dsimp only
    split
    · exact .ret (hk₁.careful hk₃)
    refine .use (fun _ ↦ rfl) ?_
    have hk₄ := hk₃.trans (Know.stays_use d session _)
    rintro (_ | err) -
    · refine .other (fun _ ↦ rfl) ?_
      rintro (err | random)
      · exact .ret (hk₁.careful hk₄)
      · refine (upload_keeps ctx session path _ (hsource session) _).bind ?_
        rintro (err | _) k₅ hk₅
        · exact .ret (hk₁.careful (hk₄.trans hk₅))
        · refine (stat_tracks ctx path).mono fun _ k₆ hk₆ ↦ ?_
          exact (hk₁.careful (hk₄.trans hk₅)).trans hk₆.careful
    · exact .ret (hk₁.careful hk₄)
  · exact .ret (hk₁.careful hk₂)

theorem delete_tracks : resources.Tracks d (delete a ctx path) k fun _ k' ↦ k.Careful d k' :=
  traced.careful_of_keeps ctx fun session ↦ .check (rejectSymlinks_keeps session path true)
    (fun _ ↦ .ret _) (.check (.command fun _ ↦ rfl) (fun _ ↦ .ret _) (.ret _))

theorem move_tracks (source destination : Path) (options : OverwriteOptions) :
    resources.Tracks d (move a ctx source destination options) k fun _ k' ↦
      k.Careful d k' ∧ ((a.atomicRename && options.overwrite) = false → k' = k) := by
  unfold move
  split
  · exact .ret ⟨⟨rfl, id, fun _ hused ↦ hused⟩, fun _ ↦ rfl⟩
  rename_i hsupported
  refine Reading.Tracks.mono (Q := fun _ k' ↦ k.Careful d k') ?_
    fun _ _ hk' ↦ ⟨hk', fun h ↦ absurd (by rw [← Bool.not_and, h]; rfl) hsupported⟩
  exact traced.careful_of_keeps ctx fun session ↦
    .check (rejectSymlinks_keeps session source true) (fun _ ↦ .ret _)
      (.check (rejectSymlinks_keeps session destination false) (fun _ ↦ .ret _)
        (.check (.command fun _ ↦ rfl) (fun _ ↦ .ret _)
          (.check (.command fun _ ↦ rfl) (fun _ ↦ .ret _) (.ret _))))

/-! ## Operations on a stream of their own -/

theorem copy_tracks (source destination : Path) (options : OverwriteOptions) :
    resources.Tracks d (copy a n ctx source destination options) k fun _ k' ↦
      (options.overwrite = false ∧ k' = k) ∨ k.Recovered d k' := by
  unfold copy
  split
  · rename_i hrefused
    exact .ret (.inl ⟨by simpa using hrefused, rfl⟩)
  · refine Reading.Tracks.mono (Q := fun _ k' ↦ k.Recovered d k') ?_ fun _ _ h ↦ .inr h
    refine (openStream_tracks n ctx source).bind ?_
    rintro (_ | err) k₁ hk₁
    · refine (writeFrom_tracks ctx destination {} fun session ↦ read_keeps n).bind ?_
      rintro result k₂ ⟨hk₂, -⟩
      -- the source was opened on a session that is not dead, and so is the destination
      have hk : k.Recovered d k₂ :=
        ⟨hk₂.sure.trans hk₁.sure, hk₂.gone hk₁.gone,
          hk₂.used (by rw [hk₁.gone, Bool.or_true]) hk₁.used⟩
      refine ((closeStream_keeps n).bind fun _ ↦ ?_).recovered (Nat.succ_ne_self d) hk
      cases result with
      | error err => exact .ret _
      | ok metadata => exact .ret _
    · exact .ret hk₁

theorem checksum_tracks (hashes : Hashes) (n : StreamId) (ctx : Ctx) (path : Path)
    (algorithm : ChecksumAlgorithm) :
    resources.Tracks d (checksum a hashes n ctx path algorithm) k fun _ k' ↦
      k.Recovered d k' := by
  refine (openStream_tracks n ctx path).bind ?_
  rintro (_ | err) k₁ hk₁
  · refine Reading.Keeps.recovered ?_ (Nat.succ_ne_self d) hk₁
    dsimp only
    split
    · exact (closeStream_keeps n).bind fun _ ↦ .ret _
    · refine (Reading.Keeps.loop (fun content ↦ ?_) []).bind fun content ↦
        (closeStream_keeps n).bind fun _ ↦ ?_
      · refine (read_keeps n).bind ?_
        rintro ⟨data, _ | err⟩
        · exact .ret _
        · exact .ret _
      · cases content with
        | error err => exact .ret _
        | ok content => exact .ret _
  · exact .ret hk₁

/-! ## Calls -/

theorem Tid.call_injective : Function.Injective Tid.call :=
  fun _ _ ↦ Tid.call.inj

/-- Whether a call replaces a session whose connection is lost. -/
def Call.recovers : Call → Bool
  | .openStream _ _ | .stat _ _ | .checksum _ _ _ _ => true
  | .openRange _ _ byteRange => validByteRange byteRange
  | .list _ _ options => 0 ≤ options.limit
  | .copy _ _ _ options => options.overwrite
  | _ => false

/-- Whether a call works on the session of the adapter and leaves it there if the
connection is lost. -/
def Call.mutates (a : Adapter) : Call → Bool
  | .write _ path options => !refusedWrite path options
  | .delete _ _ => true
  | .move _ _ _ options => a.atomicRename && options.overwrite
  | _ => false

theorem Call.run_tracks (n : Nat) (call : Call) :
    resources.Tracks d (call.run a n) k fun _ k' ↦
      k.Copes call.recovers (call.mutates a) d k' := by
  have hrecovered {call : Call} {k' : Know} (h : k.Recovered d k') :
      k.Copes call.recovers (call.mutates a) d k' :=
    ⟨fun _ ↦ h, fun _ _ ↦ h.used, fun _ _ ↦ h.used⟩
  have hspared {call : Call} {k' : Know} (h : call.recovers = false)
      (hused : k.used ≠ some d → k'.used ≠ some d) :
      k.Copes call.recovers (call.mutates a) d k' :=
    ⟨fun hc ↦ (nomatch h.symm.trans hc), fun _ ↦ hused, fun _ ↦ hused⟩
  cases call with
  | openStream ctx path =>
      exact (openStream_tracks n ctx path).bind fun _ _ hk' ↦ .ret (hrecovered hk')
  | openRange ctx path byteRange =>
      refine (openRange_tracks n ctx path byteRange).bind fun _ k' hk' ↦ .ret ?_
      rcases hk' with ⟨hinvalid, rfl⟩ | hk'
      · exact hspared hinvalid id
      · exact hrecovered hk'
  | stat ctx path => exact (stat_tracks ctx path).bind fun _ _ hk' ↦ .ret (hrecovered hk')
  | list ctx directory options =>
      refine (list_tracks ctx directory options).bind fun _ k' hk' ↦ .ret ?_
      rcases hk' with ⟨hlimit, rfl⟩ | hk'
      · exact hspared (decide_eq_false (Int.not_le.mpr hlimit)) id
      · exact hrecovered hk'
  | copy ctx source destination options =>
      refine (copy_tracks n ctx source destination options).bind fun _ k' hk' ↦ .ret ?_
      rcases hk' with ⟨hrefused, rfl⟩ | hk'
      · exact hspared hrefused id
      · exact hrecovered hk'
  | checksum hashes ctx path algorithm =>
      exact (checksum_tracks hashes n ctx path algorithm).bind fun _ _ hk' ↦ .ret (hrecovered hk')
  | write ctx path options =>
      have hsource (session : Session) : resources.Keeps d session (perform .source) :=
        .command fun _ ↦ trivial
      refine (writeFrom_tracks ctx path options hsource).bind fun _ k' hk' ↦ .ret ⟨nofun, ?_, ?_⟩
      · exact fun hsure ↦ hk'.1.used (by rw [hsure, Bool.true_or])
      · intro hrefused hused
        rwa [hk'.2 (by simpa [Call.mutates] using hrefused)]
  | delete ctx path =>
      refine (delete_tracks ctx path).bind fun _ k' hk' ↦ .ret ⟨nofun, ?_, nofun⟩
      exact fun hsure ↦ hk'.used (by rw [hsure, Bool.true_or])
  | move ctx source destination options =>
      refine (move_tracks ctx source destination options).bind fun _ k' hk' ↦ .ret ⟨nofun, ?_, ?_⟩
      · exact fun hsure ↦ hk'.1.used (by rw [hsure, Bool.true_or])
      · intro hrefused hused
        rwa [hk'.2 hrefused]
  | read stream =>
      refine (read_keeps (j := d + 1) stream k).bind fun _ k' hk' ↦ .ret ?_
      exact hspared rfl (hk'.used (Nat.succ_ne_self d))
  | closeStream stream =>
      refine (closeStream_keeps (j := d + 1) stream k).bind fun _ k' hk' ↦ .ret ?_
      exact hspared rfl (hk'.used (Nat.succ_ne_self d))
  | close => exact traced.close_tracks.bind fun _ k' hk' ↦ .ret (hspared rfl (hk'.2 ▸ id))
  | cancel ctx err => exact .other (fun _ ↦ rfl) fun _ ↦ .ret (hspared rfl id)

/-- An adapter in some state, and the calls that are going to be made. -/
def resume (a : Adapter) (calls : Nat → Call) (s : State) : Config sig State Returns :=
  { start a calls with state := s }

/-- Every call on the session `d` fails with a connection error, no call on another
session does, the connector returns sessions, no context is done, the adapter is
open, and each call returns before the next one begins. -/
def LosesSession (d : Session) (c : Config sig State Returns) (l : Label sig Tid) : Prop :=
  resources.Supposed d l ∧ InTurn Tid.call c l

/-- The number of a call. -/
def Tid.index : Tid → Option Nat
  | .call n => some n
  | _ => none

variable {calls : Nat → Call} {s : State}

theorem copes (s : State) :
    resources.Cope .call Tid.index (fun n ↦ (calls n).recovers) (fun n ↦ (calls n).mutates a)
      (fun s ↦ ∀ n, (s.streams n).started = false) (resume a calls s).threads where
  index_call _ := rfl
  eq_call t n h := by
    cases t with
    | call m => exact congrArg Tid.call (Option.some.inj h)
    | watch => exact nomatch h
  calls _ n _ := (calls n).run_tracks n
  others d t h := by
    cases t with
    | call n => exact nomatch h
    | watch n =>
        refine (watch_keeps (j := d + 1) n _).mono fun _ k hk ↦ ?_
        exact hk.used (Nat.succ_ne_self d) nofun
  init s h k := by
    rintro ⟨n, hstarted, -⟩
    exact nomatch (h n).symm.trans hstarted

/-! ### Calls that meet the dead session -/

def Call.operates : Call → Bool
  | .read _ | .closeStream _ | .close | .cancel _ _ => false
  | _ => true

theorem eval_rejectLinks (t : Tid) (s : State) (candidate : Str) (candidates : List Str) :
    Eval (machine.beside t (resources.lost 0)) (client.rejectLinks 0 (candidate :: candidates))
      (s, none) (some (.sentinel .eof)) (s, some 0) :=
  traced.eval_rejectLinks runs rfl rfl candidate candidates

/-- A call that leaves a dead session in place can return from it. -/
theorem Call.eval_mutates (n : Nat) {call : Call} (h : call.mutates a = true) : ∃ r,
    Eval (machine.beside (.call n) (resources.lost 0)) (call.run a n) ({}, none) r
      ({}, some 0) := by
  cases call with
  | openStream | openRange | stat | read | closeStream | close | cancel | list | copy | checksum =>
      exact nomatch h
  | write ctx path options =>
      have hrefused : refusedWrite path options = false := by simpa [Call.mutates] using h
      obtain ⟨hroot, hmatch⟩ := Bool.or_eq_false_iff.mp hrefused
      refine ⟨.metadata (.error (mapError path (.sentinel .eof))), Eval.bind ?_ .ret⟩
      unfold Sftp.write writeFrom
      rw [hroot, hmatch]
      refine (traced.eval_currentSession runs ctx rfl rfl rfl rfl).bind ?_
      unfold rejectSymlinks
      cases a.linkCandidates path false with
      | nil =>
          exact resources.eval_step (.stat 0 (a.remotePath path)) (.error (.sentinel .eof)) rfl rfl
            .ret
      | cons candidate candidates =>
          exact (eval_rejectLinks _ _ candidate candidates).bind .ret
  | delete ctx path =>
      refine ⟨.err (some (mapError path (.sentinel .eof))), Eval.bind ?_ .ret⟩
      refine (traced.eval_currentSession runs ctx rfl rfl rfl rfl).bind ?_
      unfold rejectSymlinks
      cases a.linkCandidates path true with
      | nil =>
          exact resources.eval_step (.remove 0 (a.remotePath path)) (some (.sentinel .eof)) rfl rfl
            .ret
      | cons candidate candidates =>
          exact (eval_rejectLinks _ _ candidate candidates).bind .ret
  | move ctx source destination options =>
      obtain ⟨hrename, hoverwrite⟩ := Bool.and_eq_true_iff.mp h
      suffices hmove : ∃ r, Eval (machine.beside (.call n) (resources.lost 0))
          (Sftp.move a ctx source destination options) ({}, none) r ({}, some 0) by
        obtain ⟨r, heval⟩ := hmove
        exact ⟨.err r, heval.bind .ret⟩
      have hsession : Eval (machine.beside (.call n) (resources.lost 0)) (currentSession ctx)
          ({}, none) (.ok 0) ({}, none) := traced.eval_currentSession runs ctx rfl rfl rfl rfl
      unfold Sftp.move rejectSymlinks
      rw [hrename, hoverwrite]
      cases a.linkCandidates source true with
      | cons candidate candidates =>
          exact ⟨_, hsession.bind ((eval_rejectLinks _ _ candidate candidates).bind .ret)⟩
      | nil =>
          cases a.linkCandidates destination false with
          | cons candidate candidates =>
              exact ⟨_, hsession.bind ((eval_rejectLinks _ _ candidate candidates).bind .ret)⟩
          | nil =>
              exact ⟨_, hsession.bind (resources.eval_step
                (.mkdirAll 0 (PathName.dir (a.remotePath destination))) (some (.sentinel .eof)) rfl
                rfl .ret)⟩

/-- The other calls of operations either replace a dead session or do nothing. -/
theorem Call.eval_lost (n : Nat) {call : Call} (hoperates : call.operates = true)
    (hrecovers : call.recovers = false) : ∃ r used,
      Eval (machine.beside (.call n) (resources.lost 0)) (call.run a n) ({}, none) r
        ({}, used) := by
  cases hmutates : call.mutates a with
  | true =>
      obtain ⟨r, heval⟩ := eval_mutates (a := a) n hmutates
      exact ⟨r, _, heval⟩
  | false =>
      suffices hret : ∃ r, call.run a n = .ret r by
        obtain ⟨r, hr⟩ := hret
        exact ⟨r, none, hr ▸ .ret⟩
      cases call with
      | openStream | stat | checksum => exact nomatch hrecovers
      | read | closeStream | close | cancel => exact nomatch hoperates
      | delete => exact nomatch hmutates
      | openRange ctx path byteRange =>
          have hinvalid : validByteRange byteRange = false := hrecovers
          dsimp only [Call.run, Sftp.openRange]
          rw [hinvalid]
          exact ⟨_, rfl⟩
      | list ctx directory options =>
          have hlimit : options.limit < 0 := Int.not_le.mp (of_decide_eq_false hrecovers)
          dsimp only [Call.run, Sftp.list]
          rw [if_pos hlimit]
          exact ⟨_, rfl⟩
      | copy ctx source destination options =>
          have hoverwrite : options.overwrite = false := hrecovers
          dsimp only [Call.run, Sftp.copy]
          rw [hoverwrite]
          exact ⟨_, rfl⟩
      | move ctx source destination options =>
          have hrefused : (!a.atomicRename || !options.overwrite) = true := by
            rw [← Bool.not_and]
            exact Bool.not_eq_true' _ ▸ hmutates
          dsimp only [Call.run, Sftp.move]
          rw [hrefused]
          exact ⟨_, rfl⟩
      | write ctx path options =>
          have hrefused : refusedWrite path options = true := by simpa [Call.mutates] using hmutates
          dsimp only [Call.run, Sftp.write, writeFrom]
          cases hroot : path.isRoot with
          | true => exact ⟨_, rfl⟩
          | false =>
              have hmatch : options.ifNoneMatch = true := by rwa [refusedWrite, hroot] at hrefused
              rw [hmatch]
              exact ⟨_, rfl⟩

/-- However calls are made one after another once the session of the adapter has died,
no call but the first returns having used the dead session last. -/
def Recovers (a : Adapter) (calls : Nat → Call) : Prop :=
  ∀ (s : State) (d : Session) (trace : List (Label sig Tid)) (c : Config sig State Returns),
    s.session = some d → d < s.dialed → (∀ n, (s.streams n).started = false) →
    RunIf machine (LosesSession d) (resume a calls s) trace c →
    ∀ n ≥ 1, ∀ r, c.threads (.call n) = .ret r → resources.lastUsed trace (.call n) ≠ some d

/-- Operations recover if and only if those that leave a dead session in place come
after one that replaces it. -/
theorem recovers_iff (hoperates : ∀ n, (calls n).operates = true) :
    Recovers a calls ↔
      ∀ n ≥ 1, (calls n).mutates a = true → ∃ m < n, (calls m).recovers = true :=
  (copes {}).recovers_iff (s := {}) (d := 0) (fun _ ↦ rfl) rfl Nat.one_pos
    (fun n ↦ Call.eval_lost n (hoperates n)) fun n ↦ Call.eval_mutates n

end GoFilesystem.Sftp
