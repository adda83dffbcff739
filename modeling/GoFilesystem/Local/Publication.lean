import GoFilesystem.Local.Calls

/-!
# Readers see complete files

An open stream stands for one inode, whatever becomes of its name.  Since only
complete files are published and nobody writes to a published one, a stream that
is read to its end has returned all the bytes of one file that was there before or
of one whole source, not a part of them and not a mixture.
-/

namespace GoFilesystem.Local

open Go Conc Posix

variable {w : World} {p : Pool w} {a : Adapter} {ctx : Ctx → Option CtxErr} {tree : Tree}
  {data : Nat → Str} {trace : List (Label sig Nat)} {c : Config sig State fun _ : Nat ↦ Outcome}

/-! ## Reading to the end -/

/-- In every run of any number of calls, a reader to whom a read has reported the
end of a stream has received exactly the bytes of one file that was there before,
or those of the whole source of one `Write`. -/
theorem complete_of_read_eof {m : Nat} {k : StreamId} {bytes : Str}
    (hrun : Run (machine w) (start a p.calls { ctx, tree, data }) trace c)
    (hm : p.calls m = .read k)
    (hret : c.threads m = .ret (.read bytes (some (.sentinel .eof)))) :
    Complete p { ctx, tree, data } c.state (c.state.streams k).received := by
  have hverified := (verified a ctx tree data).run hrun
  have hreturned := hverified.returned hret
  unfold Returned at hreturned
  rw [hm] at hreturned
  obtain ⟨data', err', heq, hended⟩ := hreturned
  cases heq
  specialize hended rfl
  obtain ⟨ctx, path, hopen⟩ := p.streams m k hm
  have hstream := hverified.inv.streams k
  cases hfile : (c.state.streams k).file with
  | none =>
      obtain ⟨ctx, path, options, hwrite⟩ := hstream.ended hended hfile
      exact nomatch hopen.symm.trans hwrite
  | some ino =>
      obtain ⟨hpublished, -, hreceived⟩ := hstream.file ino hfile
      exact hreceived hended ▸ hpublished.complete

def writeAndRead : Nat → Call
  | 0 => .write 0 .a {}
  | 1 => .openStream 0 .a
  | _ => .read 1

def zeros : World := { random := fun _ ↦ .replicate 16 0 }

theorem temporary_writeAndRead {n : Nat} {name : Str}
    (h : temporary zeros writeAndRead n = some name) :
    n = 0 ∧ name = temporaryName PathName.current (.replicate 16 0) := by
  match n with
  | 0 => exact ⟨rfl, (Option.some.inj h).symm⟩
  | 1 => exact nomatch h
  | _ + 2 => exact nomatch h

def writeAndReadPool : Pool zeros where
  calls := writeAndRead
  streams m k h := by
    match m with
    | 0 => exact nomatch h
    | 1 => exact nomatch h
    | m + 2 =>
        cases h
        exact ⟨_, _, rfl⟩
  distinct m n name hm hn :=
    (temporary_writeAndRead hm).1.trans (temporary_writeAndRead hn).1.symm
  apart m n path hpath h := by
    have hvalue := (temporary_writeAndRead h).2
    match m with
    | 0 =>
        obtain rfl := List.mem_singleton.mp hpath
        exact absurd hvalue (by decide)
    | 1 =>
        obtain rfl := List.mem_singleton.mp hpath
        exact absurd hvalue (by decide)
    | m + 2 => exact nomatch hpath

def oneByte (_ : Nat) (received : Str) : Str × Option Err :=
  if received = [] then (.lit "x", none) else ([], some (.sentinel .eof))

/-- The reader gets the byte that was written. -/
theorem writeAndRead_complete :
    ∃ trace c, Run (machine zeros) (start ⟨.allowInternalSymlinks⟩ writeAndReadPool.calls
        { tree := .empty, data := fun _ ↦ [] }) trace c ∧
      c.threads 3 = .ret (.read [] (some (.sentinel .eof))) ∧
      (c.state.streams 1).received = .lit "x" ∧
      Complete writeAndReadPool { tree := .empty, data := fun _ ↦ [] } c.state (.lit "x") := by
  obtain ⟨trace, c, hexec, hret, hreceived⟩ : ∃ trace c,
      (machine zeros).exec (fun _ _ ↦ True) (answer zeros oneByte)
        (.replicate 17 0 ++ .replicate 2 1 ++ .replicate 3 2 ++ .replicate 3 3)
        (start ⟨.allowInternalSymlinks⟩ writeAndReadPool.calls
          { tree := .empty, data := fun _ ↦ [] }) = some (trace, c) ∧
      c.threads 3 = .ret (.read [] (some (.sentinel .eof))) ∧
      (c.state.streams 1).received = .lit "x" := ⟨_, _, rfl, rfl, rfl⟩
  have hrun := (Machine.run_of_exec hexec).run
  exact ⟨trace, c, hrun, hret, hreceived, hreceived ▸ complete_of_read_eof hrun rfl hret⟩

end GoFilesystem.Local
