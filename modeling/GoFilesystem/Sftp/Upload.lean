import GoFilesystem.Remote.Upload
import GoFilesystem.Sftp.Remote

/-!
# `Write` of the SFTP adapter on a server with faults

Every command of `Write` may fail, before or after it has taken effect, and contexts may
be done at any time.  The copy into the temporary file keeps an invariant (`Copying`):
what is stored and what is still to be stored is what the source has returned.
-/

namespace GoFilesystem.Sftp

open Go Conc Posix Remote PathName Client.Runs

variable {a : Adapter} {faults : Bool} {random : Str} {t : Tid} {w : State × Outside} {ctx : Ctx}

theorem inert_rejectSymlinks (session : Session) (path : Path) (includeFinal : Bool) :
    Still (answers faults random t) Prod.snd (rejectSymlinks a session path includeFinal) :=
  (served faults random).inert_rejectLinks session _

theorem inert_stat (path : Path) :
    Still (answers faults random t) Prod.snd (stat a ctx path) := by
  refine ((served faults random).inert_withSession_checkedStat ctx true a.root path).bind ?_
  rintro (err | info)
  · exact .ret _
  · exact .ret _

/-! ## The copy -/

section Upload

variable {u : Upload} {v₀ : Outside} {file : File} {session : Session}

/-- A part of what the source has returned is in the temporary file, and the rest is to
follow. -/
structure Copying (v₀ : Outside) (u : Upload) (file : File) (rest : Str) (v : Outside) : Prop where
  staged : Staged u v₀.tree v.tree
  uploads : v.uploads = v₀.uploads ++ [u.temporary]
  file_eq : v.files file = some u.temporary
  content : ∃ content, v.tree.lookup u.temporary = some (.file content) ∧
    content ++ rest = v.received

/-- What `Write` leaves, and where it has read the source. -/
structure Finishes (v₀ : Outside) (u : Upload) (succeeded : Prop) (v : Outside) : Prop where
  leaves : Leaves u v.received (v.ended = true) succeeded v₀.tree v.tree
  uploads : (v.uploads = v₀.uploads ∧ v.received = v₀.received) ∨
    v.uploads = v₀.uploads ++ [u.temporary]

structure Abandoned (v₀ : Outside) (u : Upload) (v : Outside) : Prop where
  staged : Staged u v₀.tree v.tree
  uploads : v.uploads = v₀.uploads ++ [u.temporary]

theorem Abandoned.finishes {v : Outside} (h : Abandoned v₀ u v) : Finishes v₀ u False v :=
  ⟨.inl ⟨id, h.staged⟩, .inr h.uploads⟩

theorem Copying.abandoned {rest : Str} {v : Outside} (h : Copying v₀ u file rest v) :
    Abandoned v₀ u v :=
  ⟨h.staged, h.uploads⟩

theorem ensures_writeFile {data : Str} (h : Copying v₀ u file data w.2) :
    Ensures (answers faults random t) False (writeFile file data) w fun r w' ↦
      w'.2.ended = w.2.ended ∧ match r with
        | none => Copying v₀ u file [] w'.2
        | some _ => Abandoned v₀ u w'.2 := by
  unfold writeFile
  split
  · rename_i hdata
    exact ⟨rfl, hdata ▸ h⟩
  obtain ⟨content, hcontent, hreceived⟩ := h.content
  have hserves : Ensures (answers faults random t) False (perform (.writeFile file data)) w
      fun (r : Nat × Option Err) w' ↦ w'.2.ended = w.2.ended ∧ Abandoned v₀ u w'.2 ∧
        (r.2 = none → r.1 = data.length → Copying v₀ u file [] w'.2) := by
    refine ensures_serves ?_
    rintro _ ⟨written, err⟩ _ _
      ⟨tree, rfl, ⟨herr, rfl⟩ | ⟨l, old, stored, hfile, hold, -, hsets, hstored⟩⟩
    · exact ⟨rfl, h.abandoned, fun hnone ↦ absurd hnone herr⟩
    · cases h.file_eq.symm.trans hfile
      cases Option.some.inj (hcontent.symm.trans hold)
      refine ⟨rfl, ⟨h.staged.sets hsets, h.uploads⟩, fun hnone hlength ↦ ?_⟩
      refine ⟨h.staged.sets hsets, h.uploads, h.file_eq, content ++ stored, ?_, ?_⟩
      · exact (hsets _).trans (if_pos rfl)
      · have heq : stored = data.take written := hstored hnone
        rw [heq, show written = data.length from hlength, List.take_length, List.append_nil]
        exact hreceived
  refine hserves.bind ?_
  rintro ⟨written, _ | err⟩ w₁ ⟨hended, habandoned, hcopying⟩
  · dsimp only
    split
    · exact ⟨hended, habandoned⟩
    · rename_i hlength
      exact ⟨hended, hcopying rfl (not_not.mp hlength)⟩
  · exact ⟨hended, habandoned⟩

/-- One round of the copy. -/
theorem ensures_copyNext (h : Copying v₀ u file [] w.2) :
    Ensures (answers faults random t) False (copyNext ctx file (perform .source)) w
      (Sum.elim (fun _ w' ↦ Copying v₀ u file [] w'.2 ∧ (False → 0 < 0))
        fun r w' ↦ match r with
          | none => Copying v₀ u file [] w'.2 ∧ w'.2.ended = true
          | some _ => Abandoned v₀ u w'.2) := by
  have hread : Ensures (answers faults random t) False (contextRead ctx (perform .source)) w
      fun r w' ↦ Copying v₀ u file r.1 w'.2 ∧
        (r.2 = some (.sentinel .eof) → w'.2.ended = true) := by
    have hdone : Still (answers faults random t) Prod.snd (perform (.ctxDone ctx)) :=
      inert_of_serves fun _ _ _ _ h ↦ h
    refine hdone.next ?_
    rintro (_ | _) s
    · refine ensures_serves ?_
      rintro _ ⟨data, err⟩ _ _ rfl
      obtain ⟨content, hcontent, hreceived⟩ := h.content
      rw [List.append_nil] at hreceived
      refine ⟨⟨h.staged, h.uploads, h.file_eq, content, hcontent, ?_⟩,
        fun heof ↦ decide_eq_true heof⟩
      exact congrArg (· ++ data) hreceived
    · refine (inert_of_serves fun _ _ _ _ h ↦ h).next fun err s ↦ ⟨h, fun heof ↦ ?_⟩
      obtain ⟨err, -, heq⟩ := Option.map_eq_some_iff.mp heof
      cases err <;> exact nomatch heq
  refine hread.bind ?_
  rintro ⟨data, readErr⟩ w₁ ⟨h₁, hended⟩
  refine (ensures_writeFile h₁).bind ?_
  rintro (_ | err) w₂ ⟨hsame, h₂⟩
  · cases readErr with
    | none => exact ⟨h₂, nofun⟩
    | some err =>
        by_cases heof : err = .sentinel .eof
        · dsimp only
          rw [if_pos heof]
          exact ⟨h₂, hsame.trans (hended (congrArg some heof))⟩
        · dsimp only
          rw [if_neg heof]
          exact h₂.abandoned
  · exact h₂

/-! ## The upload -/

theorem ensures_remove {name : Str} (hname : elements name = u.temporary)
    (h : Finishes v₀ u False w.2) :
    Ensures (answers faults random t) False (perform (.remove session name)) w fun _ w' ↦
      Finishes v₀ u False w'.2 := by
  refine ensures_serves ?_
  rintro _ r _ _ ⟨_, rfl, hchanges⟩
  obtain ⟨tree, rfl, ⟨-, rfl⟩ | ⟨-, hsets⟩⟩ := hchanges.cases
  · exact h
  · exact ⟨h.leaves.sets (hname ▸ hsets), h.uploads⟩

theorem ensures_publish {name newName : Str} (hname : elements name = u.temporary)
    (hnewName : elements newName = u.destination) (h : Copying v₀ u file [] w.2)
    (hended : w.2.ended = true) :
    Ensures (answers faults random t) False (publish a session name newName) w fun r w' ↦
      Finishes v₀ u (r = none) w'.2 := by
  obtain ⟨content, hcontent, hreceived⟩ := h.content
  rw [List.append_nil] at hreceived
  have hfinishes (r : Option Err) (tree : FileTree) (hchanged : (r ≠ none ∧ tree = w.2.tree) ∨
      Renames name newName w.2.tree tree) : Finishes v₀ u (r = none) { w.2 with tree } := by
    unfold Renames at hchanged
    rw [hname, hnewName] at hchanged
    refine ⟨h.staged.rename hended (hreceived ▸ hcontent) (hchanged.imp_right ?_), .inr h.uploads⟩
    exact fun hrenames ↦ hrenames.resolve_left fun hdirectory ↦
      nomatch hcontent.symm.trans hdirectory.1
  unfold publish
  split
  · refine ensures_serves ?_
    rintro _ r _ _ ⟨_, rfl, hchanges⟩
    obtain ⟨tree, rfl, hrenames⟩ := hchanges.cases
    exact hfinishes r tree hrenames
  · refine ensures_serves ?_
    rintro _ r _ _ ⟨_, rfl, hchanges⟩
    obtain ⟨tree, rfl, hrenames⟩ := hchanges.cases
    exact hfinishes r tree (hrenames.imp_right And.right)

theorem ensures_upload {path : Path} {name : Str} (hname : elements name = u.temporary)
    (hpath : elements (a.remotePath path) = u.destination) (hstaged : Staged u v₀.tree w.2.tree)
    (hunread : w.2.uploads = v₀.uploads ∧ w.2.received = v₀.received) (hempty : v₀.received = []) :
    Ensures (answers faults random t) False (upload a ctx session path name (perform .source)) w
      fun r w' ↦ Finishes v₀ u (r.isOk = true) w'.2 := by
  have hremove (err : Err) (w : State × Outside) (h : Finishes v₀ u False w.2) :
      Ensures (answers faults random t) False (do
        let _ ← perform (.remove session name)
        return .error err : Prog sig (Except Err Unit)) w
        fun r w' ↦ Finishes v₀ u (r.isOk = true) w'.2 := by
    refine (ensures_remove hname h).bind fun _ w₁ h₁ ↦ ?_
    exact ⟨h₁.leaves.mono Bool.false_ne_true, h₁.uploads⟩
  have hclose (file : File) :
      Still (answers faults random t) Prod.snd (perform (.closeFile file)) :=
    inert_of_serves fun _ _ _ _ h ↦ h
  have hcreate : Ensures (answers faults random t) False (perform (.create session name)) w
      fun (r : Except Err Nat) w' ↦ (∀ err, r = .error err → Finishes v₀ u False w'.2) ∧
        ∀ handle, r = .ok handle → Copying v₀ u { session, handle } [] w'.2 := by
    refine ensures_serves ?_
    rintro _ (err | handle) _ _ hcreates
    · obtain ⟨tree, rfl, rfl | ⟨-, -, hsets⟩, -⟩ := hcreates
      · exact ⟨fun _ _ ↦ ⟨.inl ⟨id, hstaged⟩, .inl hunread⟩, by rintro _ ⟨⟩⟩
      · refine ⟨fun _ _ ↦ ⟨.inl ⟨id, hstaged.sets (hname ▸ hsets)⟩, .inl hunread⟩, by rintro _ ⟨⟩⟩
    · obtain ⟨tree, -, hsets, rfl⟩ := hcreates
      rw [hname] at hsets ⊢
      refine ⟨by rintro _ ⟨⟩, ?_⟩
      rintro _ ⟨⟩
      refine ⟨hstaged.sets hsets, congrArg (· ++ [u.temporary]) hunread.1,
        Function.update_self .., [], (hsets _).trans (if_pos rfl), ?_⟩
      exact (hunread.2.trans hempty).symm
  refine hcreate.bind ?_
  rintro (err | handle) w₁ ⟨herr, hok⟩
  · have h₁ := herr err rfl
    exact ⟨h₁.leaves.mono Bool.false_ne_true, h₁.uploads⟩
  have h₁ := hok handle rfl
  have hcleanup (err : Err) (w : State × Outside) (h : Abandoned v₀ u w.2) :
      Ensures (answers faults random t) False (cleanup { session, handle } name err) w
        fun r w' ↦ Finishes v₀ u (r.isOk = true) w'.2 := by
    exact (hclose _).next fun _ s ↦ hremove err (s, w.2) h.finishes
  refine Ensures.bind (Ensures.loop (fun _ w' ↦ Copying v₀ u { session, handle } [] w'.2)
    (fun _ _ ↦ 0) h₁ fun _ _ h ↦ ensures_copyNext h) ?_
  rintro (_ | err) w₂ h₂
  · have habandoned := h₂.1.abandoned
    have hsync : Still (answers faults random t) Prod.snd (perform (.sync { session, handle })) :=
      inert_of_serves fun _ _ _ _ h ↦ h
    refine (inert_of_serves fun _ _ _ _ h ↦ h).next ?_
    rintro (_ | err) s
    swap
    · exact hcleanup _ (s, w₂.2) habandoned
    refine hsync.next fun err s ↦ ?_
    split
    · exact hcleanup _ (s, w₂.2) habandoned
    refine (hclose _).next ?_
    rintro (_ | err) s
    swap
    · exact hremove err (s, w₂.2) habandoned.finishes
    refine (ensures_publish (w := (s, w₂.2)) hname hpath h₂.1 h₂.2).check
      (fun err w₆ h₆ ↦ ?_) fun w₆ h₆ ↦ ?_
    · exact hremove _ w₆ ⟨h₆.leaves.mono False.elim, h₆.uploads⟩
    · exact ⟨h₆.leaves.mono fun _ ↦ rfl, h₆.uploads⟩
  · exact hcleanup err w₂ h₂

end Upload

/-- What `Write` leaves.  It has come to nothing before it changes anything, or the look
at the destination has let it go on. -/
theorem ensures_write {u : Upload} {path : Path} {options : WriteOptions}
    (hu : path ≠ .root → u.Of a.root random path) (hempty : w.2.received = []) :
    Ensures (answers faults random t) False (write a ctx path options) w
      fun r (w' : State × Outside) ↦ (r.isOk = false ∧ w'.2 = w.2) ∨
        (path ≠ .root ∧ (a.atomicRename = true ∨ w.2.tree.lookup u.destination = none) ∧
          Finishes w.2 u (r.isOk = true) w'.2) := by
  unfold write writeFrom
  split
  · exact .inl ⟨rfl, rfl⟩
  rename_i hisRoot
  split
  · exact .inl ⟨rfl, rfl⟩
  have hpath : path ≠ .root := Path.isRoot_eq_false_iff.mp (Bool.not_eq_true _ ▸ hisRoot)
  obtain ⟨hdirectory, hdestination, htemporary⟩ := hu hpath
  refine ((served faults random).inert_currentSession ctx).next ?_
  rintro (err | session) s
  · exact .inl ⟨rfl, rfl⟩
  refine (inert_rejectSymlinks session path false).next ?_
  rintro (_ | err) s
  swap
  · exact .inl ⟨rfl, rfl⟩
  have hstat : Ensures (answers faults random t) False (perform (.stat session (a.remotePath path)))
      (s, w.2) fun r w' ↦ w'.2 = w.2 ∧ (precheck a path r = none →
        a.atomicRename = true ∨ w.2.tree.lookup u.destination = none) := by
    refine ensures_serves ?_
    rintro _ (err | info) _ _ ⟨server, rfl, hserver, hstats⟩
    · obtain rfl : server = w.2.toServer := hserver
      refine ⟨rfl, fun hcheck ↦ .inr ?_⟩
      by_contra hsome
      have hfound : isNotFound err = false := hstats.1 (hdestination.symm ▸ hsome)
      rw [precheck, hfound] at hcheck
      exact nomatch hcheck
    · obtain rfl : server = w.2.toServer := hserver
      refine ⟨rfl, fun hcheck ↦ .inl ?_⟩
      by_contra hatomic
      rw [precheck, if_neg hatomic] at hcheck
      exact nomatch hcheck
  refine hstat.bind ?_
  rintro r ⟨s, _⟩ ⟨rfl, hcheck⟩
  cases hprecheck : precheck a path r with
  | some err => exact .inl ⟨rfl, rfl⟩
  | none =>
      have hexisting := hcheck hprecheck
      have hmkdir : Ensures (answers faults random t) False
          (perform (.mkdirAll session (dir (a.remotePath path)))) (s, w.2) fun _ w' ↦
            Staged u w.2.tree w'.2.tree ∧
              w'.2.uploads = w.2.uploads ∧ w'.2.received = w.2.received := by
        refine ensures_serves ?_
        rintro _ r _ _ ⟨_, rfl, tree, rfl, hmakes, -⟩
        rw [show elements (dir (a.remotePath path)) = u.directory from hdirectory] at hmakes
        exact ⟨(Staged.refl u _).makes hmakes, rfl, rfl⟩
      refine hmkdir.bind fun r w₄ h₄ ↦ ?_
      have hfailed : Finishes w.2 u (false = true) w₄.2 := ⟨.inl ⟨nofun, h₄.1⟩, .inl h₄.2⟩
      cases r with
      | some err => exact .inr ⟨hpath, hexisting, hfailed⟩
      | none =>
          have hrandom : Ensures (answers faults random t) False (perform .random) w₄ fun r w' ↦
              w'.2 = w₄.2 ∧ ∀ bytes, r = .ok bytes → bytes = random := by
            refine ensures_serves ?_
            rintro _ (err | bytes) _ _ ⟨rfl, hbytes⟩
            · exact ⟨rfl, nofun⟩
            · exact ⟨rfl, fun _ heq ↦ Except.ok.inj heq ▸ hbytes⟩
          refine hrandom.bind ?_
          rintro (err | bytes) ⟨s, _⟩ ⟨rfl, hbytes⟩
          · exact .inr ⟨hpath, hexisting, hfailed⟩
          rw [hbytes bytes rfl]
          refine (ensures_upload (w := (s, w₄.2)) htemporary hdestination h₄.1 h₄.2 hempty).bind ?_
          rintro (err | ⟨⟩) w₆ h₆
          · exact .inr ⟨hpath, hexisting, h₆⟩
          · refine (inert_stat path w₆).mono fun r w₇ h₇ ↦ .inr ⟨hpath, hexisting, ?_⟩
            exact h₇.symm ▸ ⟨h₆.leaves.mono fun _ ↦ rfl, h₆.uploads⟩

end GoFilesystem.Sftp
