import GoFilesystem.Conc.Solo
import GoFilesystem.Remote.Walk

/-!
# A walk against any server

The loop of `list`, whatever is answered: names and kinds may be anything, and a
directory may be nested in itself without end.  What bounds the loop is the limit.
A directory is in the queue only if there is an entry for it, so the directories that
have been read and those in the queue are never more than one and the entries
(`Within.reads`).
-/

namespace GoFilesystem.Remote

open Go Conc Posix PathName

section Beneath

variable {directory current path : Path} {name : Str}

theorem segmentsOf_ne_nil_of_join (h : current.join name = .ok path) : segmentsOf name ≠ [] := by
  obtain ⟨rest, hrest⟩ := (current.exists_join_iff name).mp ⟨path, h⟩
  have hnormal := normalForm_of_normalizePath (parsePath_eq_ok.mp hrest)
  rw [← segmentsOf_normalizePath (parsePath_eq_ok.mp hrest), hnormal.segmentsOf_eq]
  exact List.splitOn_ne_nil _ _

/-- `Join` goes down. -/
theorem isBeneath_of_join (hcurrent : directory.segments <+: current.segments)
    (h : current.join name = .ok path) : path.IsBeneath directory := by
  obtain ⟨rest, hrest⟩ := hcurrent
  refine ⟨rest ++ segmentsOf name, ?_, ?_⟩
  · exact List.append_ne_nil_of_right_ne_nil _ (segmentsOf_ne_nil_of_join h)
  · rw [Path.segments_join h, ← hrest, List.append_assoc]

end Beneath

/-- What holds after every round of a walk, of which `reads` directories have been
read. -/
structure Within (directory : Path) (limit : Int) (queue : List Path) (entries : List Entry)
    (reads : Nat) : Prop where
  length_lt : entries.length < limit
  reads : reads + queue.length ≤ entries.length + 1
  queue_beneath : ∀ path ∈ queue, directory.segments <+: path.segments
  beneath : ∀ entry ∈ entries, entry.path.IsBeneath directory

def Bounded (directory : Path) (limit : Int) (r : Except Err (List Entry)) : Prop :=
  ∀ entries, r = .ok entries →
    entries.length ≤ limit ∧ ∀ entry ∈ entries, entry.path.IsBeneath directory

section Round

variable {directory current : Path} {limit : Int} {queue : List Path} {entries : List Entry}
  {reads : Nat}

theorem Bounded.sortEntries (hlength : entries.length ≤ limit)
    (hbeneath : ∀ entry ∈ entries, entry.path.IsBeneath directory) :
    Bounded directory limit (.ok (sortEntries entries)) := by
  have hperm : (Remote.sortEntries entries).Perm entries := List.mergeSort_perm ..
  intro sorted hsorted
  cases hsorted
  exact ⟨hperm.length_eq ▸ hlength, fun entry hentry ↦ hbeneath entry (hperm.mem_iff.mp hentry)⟩

theorem bounded_error (err : Err) : Bounded directory limit (.error err) :=
  fun _ h ↦ nomatch h

theorem within_start (hlimit : 0 < limit) : Within directory limit [directory] [] 0 where
  length_lt := hlimit
  reads := Nat.le_refl _
  queue_beneath path hpath := by rw [List.mem_singleton.mp hpath]
  beneath _ h := absurd h List.not_mem_nil

/-- One round of a walk. -/
theorem Within.visitDirectory (denied : Str → Err) (recursive : Bool)
    (h : Within directory limit (current :: queue) entries reads) (children : List Child) :
    match visitDirectory denied recursive limit current queue entries children with
    | .inl (queue', entries') => Within directory limit queue' entries' (reads + 1) ∧
      2 * (limit.toNat - entries'.length) + queue'.length <
        2 * (limit.toNat - entries.length) + (current :: queue).length
    | .inr r => Bounded directory limit r := by
  have hcurrent := h.queue_beneath current List.mem_cons_self
  have hlength := h.length_lt
  have hreads := h.reads
  rw [List.length_cons] at hreads
  unfold Remote.visitDirectory
  cases hvisit : visitChildren denied current recursive limit (inOrder children) queue entries with
  | error err => exact bounded_error err
  | ok result =>
      obtain ⟨entries', queue'⟩ := result
      obtain ⟨made, rfl, hmade, hqueue⟩ := visitChildren_eq_ok hvisit
      have hbeneath : ∀ entry ∈ entries ++ made, entry.path.IsBeneath directory := by
        intro entry hentry
        rcases List.mem_append.mp hentry with hentry | hentry
        · exact h.beneath entry hentry
        · obtain ⟨child, -, hchild⟩ := exists_of_forall₂ hmade hentry
          exact isBeneath_of_join hcurrent hchild.join_eq
      cases queue' with
      | none => exact Bounded.sortEntries (hqueue hlength).le hbeneath
      | some queue' =>
          obtain ⟨-, rfl, hlt⟩ := hqueue
          have hnew : (if recursive then directoryPaths made else []).Sublist
              (made.map Entry.path) := by
            split
            · exact List.filter_sublist.map _
            · exact List.nil_sublist _
          have hle := hnew.length_le
          rw [List.length_map] at hle
          refine ⟨⟨hlt hlength, ?_, ?_, hbeneath⟩, ?_⟩
          · rw [List.length_append, List.length_append]
            omega
          · intro path hpath
            rcases List.mem_append.mp hpath with hpath | hpath
            · exact h.queue_beneath path (List.mem_cons_of_mem _ hpath)
            · obtain ⟨entry, hentry, rfl⟩ := List.mem_map.mp (hnew.subset hpath)
              obtain ⟨rest, -, hrest⟩ := hbeneath entry (List.mem_append_right _ hentry)
              exact ⟨rest, hrest.symm⟩
          · have hlt := hlt hlength
            rw [List.length_append] at hlt ⊢
            rw [List.length_append, List.length_cons]
            omega

end Round

section Program

variable {S : Sig} {W : Type} {A : Answers S W} {C : Client S} {reads : W → Nat} {ctx : Ctx}
  {session : Session}

theorem ensures_rejectLinks_reads (hlstat : ∀ w name,
      Ensures A True (C.perform (.lstat session name)) w fun _ w' ↦ reads w' = reads w)
    (candidates : List Str) (w : W) :
    Ensures A True (C.rejectLinks session candidates) w fun _ w' ↦ reads w' = reads w := by
  induction candidates generalizing w with
  | nil => exact rfl
  | cons candidate candidates ih =>
      refine (hlstat w candidate).bind ?_
      rintro (err | child) w₁ h₁
      · exact h₁
      · dsimp only
        split
        · exact h₁
        · exact (ih w₁).mono fun _ _ h₂ ↦ h₂.trans h₁

/-- `list` ends within its limit, if every request is answered and the world counts the
directories that are read. -/
theorem ensures_bounded (hlstat : ∀ w name,
      Ensures A True (C.perform (.lstat session name)) w fun _ w' ↦ reads w' = reads w)
    (hread : ∀ w name,
      Ensures A True (C.readDir ctx session name) w fun _ w' ↦ reads w' ≤ reads w + 1)
    (root : Str) (recursive : Bool) {limit : Int} (hlimit : 0 < limit) (directory : Path) (w : W) :
    Ensures A True (C.listTree root ctx directory recursive limit session) w fun r w' ↦
      reads w' ≤ reads w + limit ∧ Bounded directory limit r := by
  refine Ensures.bind (K := fun _ w' ↦ reads w' = reads w) ?_ ?_
  · split
    · exact rfl
    · exact ensures_rejectLinks_reads hlstat _ w
  rintro (_ | err) w₀ h₀
  swap
  · exact ⟨by omega, bounded_error err⟩
  refine Ensures.loop
    (fun i w' ↦ ∃ n, reads w' ≤ reads w + n ∧ Within directory limit i.1 i.2 n)
    (fun i _ ↦ 2 * (limit.toNat - i.2.length) + i.1.length) ⟨0, h₀.le, within_start hlimit⟩ ?_
  rintro ⟨queue, entries⟩ w₁ ⟨n, hn, hwithin⟩
  have hlength := hwithin.length_lt
  have hreads := hwithin.reads
  cases queue with
  | nil =>
      rw [List.length_nil] at hreads
      exact ⟨by omega, Bounded.sortEntries hlength.le hwithin.beneath⟩
  | cons current queue =>
      rw [List.length_cons] at hreads
      refine (hread w₁ _).bind ?_
      rintro (err | children) w₂ h₂
      · exact ⟨by omega, bounded_error err⟩
      · have hround := hwithin.visitDirectory C.linkIsDenied recursive children
        refine Ensures.ret ?_
        generalize Remote.visitDirectory C.linkIsDenied recursive limit current queue entries
          children = result at hround ⊢
        rcases result with ⟨queue', entries'⟩ | r
        · exact ⟨⟨n + 1, by omega, hround.1⟩, fun _ ↦ hround.2⟩
        · exact ⟨by omega, hround⟩

end Program

end GoFilesystem.Remote
