import GoFilesystem.Conc.Slot

/-!
# Machines with a slot

The events of a slot along a run.  What the threads know of themselves is what
has happened (`Kept`), so the invariant becomes a statement about the history of
the slot alone: how often each resource was made and released, by whom and why.

A machine has a slot if its commands can be read as events (`Guards`).  If its
threads keep to the order of events, then the slot is owned exclusively along
every run (`Guards.owned`).
-/

namespace GoFilesystem.Conc.Slot

variable {Tid : Type}

/-! ## Histories -/

/-- How often a resource has been released. -/
def releases (history : List (Tid × Event)) (k : Nat) : Nat :=
  history.countP fun x ↦ x.2 = .release k

/-- The resources made so far, the first `m` of which there were at first. -/
def Made (m : Nat) (history : List (Tid × Event)) (k : Nat) : Prop :=
  k < m ∨ ∃ t, (t, .make (some k)) ∈ history

section History

variable {history : List (Tid × Event)} {m k : Nat} {s s' : Shared Tid} {x : Tid → Local} {t : Tid}
  {e : Event} {p : Phase}

theorem releases_concat (t : Tid) (e : Event) :
    releases (history ++ [(t, e)]) = count e (releases history) := by
  funext k
  unfold releases count
  rw [List.countP_append, List.countP_singleton]
  by_cases he : e = .release k
  · simp [he]
  · simp [he]

theorem made_concat (t : Tid) (e : Event) (k : Nat) :
    Made m (history ++ [(t, e)]) k ↔ Made m history k ∨ e = .make (some k) := by
  unfold Made
  constructor
  · rintro (hk | ⟨t', hmem⟩)
    · exact .inl (.inl hk)
    · rcases List.mem_append.mp hmem with hold | hnew
      · exact .inl (.inr ⟨t', hold⟩)
      · exact .inr (Prod.mk.inj (List.mem_singleton.mp hnew)).2.symm
  · rintro ((hk | ⟨t', hmem⟩) | rfl)
    · exact .inl hk
    · exact .inr ⟨t', List.mem_append_left _ hmem⟩
    · exact .inr ⟨t, List.mem_append_right _ (List.mem_singleton.mpr rfl)⟩

theorem made_of_act (h : ∀ k, Made m history k ↔ k < s.made) (hact : act t e s = some s')
    (k : Nat) :
    Made m (history ++ [(t, e)]) k ↔ k < s'.made := by
  rw [made_concat, h]
  cases e with
  | make r =>
      cases r with
      | none =>
          cases hact
          simp
      | some j =>
          obtain ⟨rfl, rfl⟩ := of_ite_some hact
          simp only [Event.make.injEq, Option.some.injEq]
          omega
  | lock | unlock | loadShut | load =>
      obtain ⟨-, rfl⟩ := of_ite_some hact
      simp
  | _ =>
      cases hact
      simp

theorem Phase.Step.of_made {closer : Bool} {used : Option (Nat × Bool)}
    (h : Phase.Step closer used e p (.made k)) : e = .make (some k) := by
  cases h with
  | make => rfl

theorem Phase.Step.of_release {closer : Bool} {used : Option (Nat × Bool)} {q : Phase}
    (h : Phase.Step closer used (.release k) p q) : closer = true ∨ used = some (k, true) := by
  cases h with
  | discard _ hused => exact .inr hused
  | dispose _ hcloser => exact .inl hcloser

/-- A slot that has just been filled for the first time. -/
theorem inv_start (closer : Tid → Bool) :
    Inv ⟨none, some 0, false, 1⟩ (fun t ↦ { closer := closer t }) fun _ ↦ 0 where
  inside t h := absurd rfl h
  rest _ := by
    refine ⟨fun k hk ↦ ?_, nofun⟩
    obtain rfl : k = 0 := by
      dsimp only at hk
      omega
    rfl
  holds := nofun
  bound k hk := by
    cases hk
    exact Nat.one_pos
  unmade _ _ := rfl
  seen := nofun

variable [DecidableEq Tid]

/-- The latest that is known from the events of a thread. -/
def latest {α : Type} (f : Event → Option α) (history : List (Tid × Event)) (t : Tid) :
    Option α :=
  history.reverse.findSome? fun x ↦ if x.1 = t then f x.2 else none

theorem latest_concat_self {α : Type} (f : Event → Option α) (t : Tid) (e : Event) :
    latest f (history ++ [(t, e)]) t = (f e <|> latest f history t) := by
  unfold latest
  rw [List.reverse_concat, List.findSome?_cons]
  cases hf : f e <;> simp

theorem latest_concat_of_ne {α : Type} (f : Event → Option α) {t t' : Tid} (ht : t' ≠ t)
    (e : Event) : latest f (history ++ [(t, e)]) t' = latest f history t' := by
  unfold latest
  rw [List.reverse_concat, List.findSome?_cons]
  simp [Ne.symm ht]

/-- What is kept along a history: the invariant, and what the threads know is what
has happened. -/
structure Kept (closer : Tid → Bool) (m : Nat) (history : List (Tid × Event)) (s : Shared Tid)
    (x : Tid → Local) : Prop where
  inv : Inv s x (releases history)
  role : ∀ t, (x t).closer = closer t
  used : ∀ t, (x t).used = latest Event.used history t
  made : ∀ k, Made m history k ↔ k < s.made
  /-- The making of a resource that is not in the slot yet is the latest event of
  its thread. -/
  pending : ∀ t k, (x t).phase = .made k → latest some history t = some (.make (some k))
  /-- Every release is by a closer or by a thread that has just found broken what it
  releases. -/
  justified : ∀ before t k after, history = before ++ (t, .release k) :: after →
    closer t = true ∨ latest Event.used before t = some (k, true)

variable {closer : Tid → Bool}

theorem Kept.step (h : Kept closer m history s x) (hact : act t e s = some s')
    (hstep : Phase.Step (x t).closer (x t).used e (x t).phase p) :
    Kept closer m (history ++ [(t, e)]) s' (Function.update x t ((x t).after e p)) where
  inv := releases_concat t e ▸ h.inv.step hact hstep
  role t' := by
    by_cases ht : t' = t
    · rw [ht, Function.update_self]
      exact h.role t
    · rw [Function.update_of_ne ht]
      exact h.role t'
  used t' := by
    by_cases ht : t' = t
    · rw [ht, Function.update_self, latest_concat_self, ← h.used t]
      rfl
    · rw [Function.update_of_ne ht, latest_concat_of_ne _ ht]
      exact h.used t'
  made := made_of_act h.made hact
  pending t' k hphase := by
    by_cases ht : t' = t
    · subst ht
      rw [Function.update_self] at hphase
      obtain rfl : p = .made k := hphase
      rw [latest_concat_self, hstep.of_made]
      rfl
    · rw [Function.update_of_ne ht] at hphase
      rw [latest_concat_of_ne _ ht]
      exact h.pending t' k hphase
  justified before t' k after heq := by
    rcases List.eq_nil_or_concat after with rfl | ⟨rest, last, rfl⟩
    · obtain ⟨rfl, hlast⟩ := List.append_inj' heq rfl
      obtain ⟨rfl, rfl⟩ := Prod.mk.inj (List.cons.inj hlast).1
      rw [← h.role t, ← h.used t]
      exact hstep.of_release
    · rw [List.concat_eq_append, ← List.cons_append, ← List.append_assoc] at heq
      exact h.justified before t' k rest (List.append_inj' heq rfl).1

theorem kept_start (closer : Tid → Bool) :
    Kept closer 1 [] ⟨none, some 0, false, 1⟩ fun t ↦ { closer := closer t } where
  inv := inv_start closer
  role _ := rfl
  used _ := rfl
  made k := by
    unfold Made
    simp
  pending := nofun
  justified before t k after heq := by
    simp at heq

end History

/-! ## Machines with a slot -/

theorem shut_of_act {s s' : Shared Tid} {t : Tid} {e : Event} (h : act t e s = some s')
    (hs : s.shut = true) : s'.shut = true := by
  cases e with
  | make r =>
      cases r with
      | none => exact Option.some.inj h ▸ hs
      | some k =>
          obtain ⟨-, hs'⟩ := of_ite_some h
          exact hs' ▸ hs
  | lock | unlock | loadShut | load =>
      obtain ⟨-, hs'⟩ := of_ite_some h
      exact hs' ▸ hs
  | storeShut => exact Option.some.inj h ▸ rfl
  | _ => exact Option.some.inj h ▸ hs

section Guards

variable {S : Sig} {State : Type} {M : Machine S Tid State} {R : Tid → Type}
  {Q : (t : Tid) → R t → Local → Prop} {c c' : Config S State R} {trace : List (Label S Tid)}
  {closer : Tid → Bool}

/-- A reading of the commands of a machine as events of a slot. -/
structure Guards (M : Machine S Tid State) where
  event : (c : S.Cmd) → S.Resp c → Event
  view : State → Shared Tid
  act_of_apply : ∀ t c r s s', M.apply t c r s = some s' →
    act t (event c r) (view s) = some (view s')

variable (G : Guards M) {cmd : S.Cmd}

/-- The order of events as a usage of the commands. -/
def Guards.usage : Usage S where
  Local := Local
  Next c r x y := ∃ p, Phase.Step x.closer x.used (G.event c r) x.phase p ∧
    y = x.after (G.event c r) p

def Guards.history (trace : List (Label S Tid)) : List (Tid × Event) :=
  trace.filterMap fun
    | .call t c r => some (t, G.event c r)
    | .silent _ => none

@[simp] theorem Guards.history_call (t : Tid) (cmd : S.Cmd) (r : S.Resp cmd) :
    G.history (trace ++ [.call t cmd r]) = G.history trace ++ [(t, G.event cmd r)] :=
  List.filterMap_append

@[simp] theorem Guards.history_silent (t : Tid) :
    G.history (trace ++ [.silent t]) = G.history trace := by
  unfold Guards.history
  rw [List.filterMap_append]
  exact List.append_nil _

/-- A command, with the phase that each response leads to, and what follows. -/
theorem Guards.follows_step {α : Type} {x : Local} {f : S.Resp cmd → Prog S α}
    {Q : α → Local → Prop} {phase : Phase} (hx : x.phase = phase)
    (h : ∀ r, ∃ p, Phase.Step x.closer x.used (G.event cmd r) phase p ∧
      G.usage.Follows (f r) (x.after (G.event cmd r) p) Q) :
    G.usage.Follows (Prog.perform cmd >>= f) x Q := by
  intro r
  obtain ⟨p, hstep, hf⟩ := h r
  exact ⟨_, ⟨p, hx ▸ hstep, rfl⟩, hf⟩

/-- A thread does not change its role. -/
theorem Guards.follows_closer {α : Type} {p : Prog S α} {x : Local} {Q : α → Local → Prop}
    (h : G.usage.Follows p x Q) :
    G.usage.Follows p x fun r y ↦ Q r y ∧ y.closer = x.closer := by
  suffices hrole : ∀ closer, x.closer = closer →
      G.usage.Follows p x fun r y ↦ Q r y ∧ y.closer = closer from hrole _ rfl
  intro closer hx
  induction p generalizing x with
  | ret a => exact ⟨h, hx⟩
  | call cmd k ih =>
      intro r
      obtain ⟨_, ⟨phase, hstep, rfl⟩, hk⟩ := h r
      exact ⟨_, ⟨phase, hstep, rfl⟩, ih r hk hx⟩
  | iter body i k ihbody ihk =>
      obtain ⟨J, K, hj, hbody, hk⟩ := h
      refine ⟨fun i y ↦ J i y ∧ y.closer = closer, fun b y ↦ K b y ∧ y.closer = closer, ⟨hj, hx⟩,
        ?_, fun b y hb ↦ ihk b (hk b y hb.1) hb.2⟩
      rintro i y ⟨hj, hy⟩
      refine (ihbody i (hbody i y hj) hy).mono ?_
      rintro (i' | b) z hz
      · exact hz
      · exact hz

/-! ### Outside the critical sections -/

/-- An event that has nothing to do with the slot, or is the use of a resource. -/
def Event.Apart : Event → Prop
  | .other | .use _ _ => True
  | _ => False

theorem Event.Apart.step {e : Event} (he : e.Apart) (closer : Bool) (used : Option (Nat × Bool)) :
    Phase.Step closer used e .outside .outside := by
  cases e with
  | other => exact .other
  | use k broken => exact .use k broken
  | _ => exact he.elim

section Outside

variable {G} {ε α β ι : Type} {broken : ε → Bool} {k : Nat} {e : α → Option ε} {e' : β → Option ε}
  {f : α → Prog S β}

/-- A program for a thread that is outside, where it is again in the end. -/
def Guards.Outside (G : Guards M) (p : Prog S α) : Prop :=
  ∀ x : Local, x.phase = .outside → G.usage.Follows p x fun _ y ↦ y.phase = .outside

theorem Guards.Outside.ret (a : α) : G.Outside (pure a) := fun _ hx ↦ hx

theorem Guards.Outside.bind {p : Prog S α} (hp : G.Outside p) (hf : ∀ a, G.Outside (f a)) :
    G.Outside (p >>= f) :=
  fun x hx ↦ (hp x hx).bind fun a y hy ↦ hf a y hy

/-- An error ends the program, or it goes on. -/
theorem Guards.Outside.check {p : Prog S (Option α)} {f : Option α → Prog S β} (hp : G.Outside p)
    (herr : ∀ err, G.Outside (f (some err))) (hf : G.Outside (f none)) : G.Outside (p >>= f) := by
  refine hp.bind fun r ↦ ?_
  cases r with
  | none => exact hf
  | some err => exact herr err

theorem Guards.Outside.get {p : Prog S (Except ε α)} {f : Except ε α → Prog S β}
    (hp : G.Outside p) (herr : ∀ err, G.Outside (f (.error err)))
    (hf : ∀ a, G.Outside (f (.ok a))) : G.Outside (p >>= f) := by
  refine hp.bind fun r ↦ ?_
  cases r with
  | error err => exact herr err
  | ok a => exact hf a

theorem Guards.Outside.step {f : S.Resp cmd → Prog S α} (hcmd : ∀ r, (G.event cmd r).Apart)
    (hf : ∀ r, G.Outside (f r)) : G.Outside (Prog.perform cmd >>= f) :=
  fun x hx ↦ G.follows_step hx fun r ↦ ⟨.outside, (hcmd r).step x.closer x.used, hf r _ rfl⟩

theorem Guards.Outside.command (hcmd : ∀ r, (G.event cmd r).Apart) : G.Outside (Prog.perform cmd) :=
  .step hcmd .ret

theorem Guards.Outside.loop {body : ι → Prog S (ι ⊕ β)} (h : ∀ i, G.Outside (body i)) (i : ι) :
    G.Outside (Prog.loop body i) := by
  refine fun x hx ↦ .loop (fun _ (y : Local) ↦ y.phase = .outside) hx fun i y hy ↦ ?_
  refine (h i y hy).mono ?_
  rintro (i' | b) z hz
  · exact hz
  · exact hz

theorem Guards.Outside.of_within {P : S.Cmd → Prop} {p : Prog S α} (hp : p.Within P)
    (h : ∀ c r, P c → (G.event c r).Apart) : G.Outside p := by
  induction p with
  | ret a => exact .ret a
  | call c f ih => exact .step (fun r ↦ h c r hp.1) fun r ↦ ih r (hp.2 r)
  | iter body i f ihbody ih =>
      exact Outside.bind (p := Prog.loop body i) (.loop (fun i ↦ ihbody i (hp.1 i)) i)
        fun b ↦ ih b (hp.2 b)

/-- A thread outside, which has used a resource last if that is why it reports an
error that calls it broken. -/
def Reports (broken : ε → Bool) (k : Nat) (err : Option ε) (x : Local) : Prop :=
  x.phase = .outside ∧ ∀ e ∈ err, broken e = true → x.used = some (k, true)

/-- A program that uses a resource, and reports an error that calls it broken only if
that was its last use. -/
def Guards.Uses (G : Guards M) (broken : ε → Bool) (k : Nat) (e : α → Option ε) (p : Prog S α) :
    Prop :=
  ∀ x : Local, x.phase = .outside → G.usage.Follows p x fun a ↦ Reports broken k (e a)

theorem Guards.Uses.outside {p : Prog S α} (h : G.Uses broken k e p) : G.Outside p :=
  fun x hx ↦ (h x hx).mono fun _ _ hy ↦ hy.1

theorem Guards.Uses.ret {a : α} (h : (e a).any broken = false) : G.Uses broken k e (pure a) := by
  refine fun x hx ↦ ⟨hx, fun err herr hbroken ↦ ?_⟩
  rw [Option.mem_def.mp herr] at h
  exact nomatch h.symm.trans hbroken

/-- A command that uses a resource. -/
theorem Guards.Uses.command {e : S.Resp cmd → Option ε}
    (hcmd : ∀ r, G.event cmd r = .use k ((e r).any broken)) :
    G.Uses broken k e (Prog.perform cmd) := by
  refine fun x hx ↦ Usage.Follows.command fun r ↦ ⟨_, ⟨.outside, ?_, rfl⟩, rfl, ?_⟩
  · rw [hcmd, hx]
    exact .use _ _
  · intro err herr hbroken
    rw [hcmd, Option.mem_def.mp herr]
    exact congrArg (fun b ↦ some (k, b)) hbroken

/-- What follows a use either uses the resource too, or reports the same. -/
theorem Guards.Uses.bind {p : Prog S α} (hp : G.Uses broken k e p)
    (hf : ∀ a, G.Uses broken k e' (f a) ∨ ∃ b, f a = pure b ∧ e' b = e a) :
    G.Uses broken k e' (p >>= f) := by
  refine fun x hx ↦ (hp x hx).bind fun a y hy ↦ ?_
  rcases hf a with h | ⟨b, hb, heq⟩
  · exact h y hy.1
  · rw [hb]
    change Reports broken k (e' b) y
    exact heq ▸ hy

theorem Guards.Uses.step {f : S.Resp cmd → Prog S α} (hcmd : ∀ r, (G.event cmd r).Apart)
    (hf : ∀ r, G.Uses broken k e (f r)) : G.Uses broken k e (Prog.perform cmd >>= f) :=
  fun x hx ↦ (Outside.command hcmd x hx).bind fun r y hy ↦ hf r y hy

theorem Guards.Uses.loop {body : ι → Prog S (ι ⊕ β)}
    (h : ∀ i, G.Uses broken k (Sum.elim (fun _ ↦ none) e') (body i)) (i : ι) :
    G.Uses broken k e' (Prog.loop body i) := by
  refine fun x hx ↦ .loop (fun _ (y : Local) ↦ y.phase = .outside) hx fun i y hy ↦ ?_
  refine (h i y hy).mono ?_
  rintro (i' | b) z hz
  · exact hz.1
  · exact hz

/-- A program for a thread outside whose latest use has found `k` broken. -/
def Guards.Discards (G : Guards M) (k : Nat) (p : Prog S α) : Prop :=
  ∀ x : Local, x.phase = .outside → x.used = some (k, true) →
    G.usage.Follows p x fun _ y ↦ y.phase = .outside

theorem Guards.Discards.bind {p : Prog S α} (hp : G.Discards k p) (hf : ∀ a, G.Outside (f a)) :
    G.Discards k (p >>= f) :=
  fun x hx hused ↦ (hp x hx hused).bind fun a y hy ↦ hf a y hy

/-- What follows a use may depend on the error. -/
theorem Guards.Uses.handle {p : Prog S α} (hp : G.Uses broken k e p)
    (hf : ∀ a, G.Outside (f a) ∨ ∃ err ∈ e a, broken err = true ∧ G.Discards k (f a)) :
    G.Outside (p >>= f) := by
  refine fun x hx ↦ (hp x hx).bind fun a y hy ↦ ?_
  rcases hf a with h | ⟨err, herr, hbroken, h⟩
  · exact h y hy.1
  · exact h y hy.1 (hy.2 err herr hbroken)

end Outside

variable [DecidableEq Tid]

theorem Guards.kept (hconforms : Conforms G.usage Q c fun t ↦ { closer := closer t })
    (hinit : G.view c.state = ⟨none, some 0, false, 1⟩) (hrun : Run M c trace c') :
    ∃ x, Conforms G.usage Q c' x ∧ Kept closer 1 (G.history trace) (G.view c'.state) x := by
  refine hconforms.induct (J := fun trace s x ↦ Kept closer 1 (G.history trace) (G.view s) x)
    ?_ ?_ ?_ hrun
  · rw [hinit]
    exact kept_start closer
  · rintro trace t cmd r s s' x y hkept happly ⟨p, hstep, rfl⟩
    rw [G.history_call]
    exact hkept.step (G.act_of_apply t cmd r s s' happly) hstep
  · intro trace t s x hkept
    rwa [G.history_silent]

/-- Nothing is made once the slot is shut. -/
theorem Guards.make_notMem_of_shut {x : Tid → Local} {n : Nat → Nat}
    (hconforms : Conforms G.usage Q c x) (hinv : Inv (G.view c.state) x n)
    (hshut : (G.view c.state).shut = true) (hrun : Run M c trace c') (t : Tid) (r : Option Nat) :
    (t, .make r) ∉ G.history trace := by
  suffices h : ∃ x, Conforms G.usage Q c' x ∧ (∃ n, Inv (G.view c'.state) x n) ∧
      (G.view c'.state).shut = true ∧ ∀ t r, (t, .make r) ∉ G.history trace by
    obtain ⟨-, -, -, -, hnone⟩ := h
    exact hnone t r
  refine hconforms.induct (J := fun trace s x ↦ (∃ n, Inv (G.view s) x n) ∧
    (G.view s).shut = true ∧ ∀ t r, (t, .make r) ∉ G.history trace)
    ⟨⟨n, hinv⟩, hshut, fun _ _ ↦ List.not_mem_nil⟩ ?_ ?_ hrun
  · rintro trace t cmd r s s' x y ⟨⟨n, hinv⟩, hshut, hnone⟩ happly ⟨p, hstep, rfl⟩
    have hact := G.act_of_apply t cmd r s s' happly
    refine ⟨⟨_, hinv.step hact hstep⟩, shut_of_act hact hshut, fun t' made hmem ↦ ?_⟩
    rw [G.history_call] at hmem
    rcases List.mem_append.mp hmem with hold | hnew
    · exact hnone t' made hold
    · obtain ⟨rfl, hevent⟩ := Prod.mk.inj (List.mem_singleton.mp hnew)
      exact nomatch (hinv.not_shut_of_make (hevent ▸ hstep)).symm.trans hshut
  · intro trace t s x h
    rwa [G.history_silent]

/-- A resource that the thread with the mutex has made, and not yet put into the
empty slot: it has done nothing since. -/
def Pending (history : List (Tid × Event)) (s : Shared Tid) (k : Nat) : Prop :=
  s.current = none ∧ ∃ t, s.mu = some t ∧ latest some history t = some (.make (some k))

/-- The slot is owned exclusively: what is to be said after a run of a machine
that begins with one resource in its slot. -/
structure Owned (closer : Tid → Bool) (trace : List (Label S Tid)) (c : Config S State R) :
    Prop where
  /-- At most one resource has not been released. -/
  sole : ∀ j k, Made 1 (G.history trace) j → Made 1 (G.history trace) k →
    releases (G.history trace) j = 0 → releases (G.history trace) k = 0 → j = k
  /-- What has not been released is in the slot, or is just being put there. -/
  current : ∀ k, Made 1 (G.history trace) k → releases (G.history trace) k = 0 →
    (G.view c.state).current = some k ∨ Pending (G.history trace) (G.view c.state) k
  /-- What is no longer in the slot has been released exactly once. -/
  left : ∀ k, Made 1 (G.history trace) k → (G.view c.state).current ≠ some k →
    ¬Pending (G.history trace) (G.view c.state) k → releases (G.history trace) k = 1
  /-- Nothing is ever released twice. -/
  once : ∀ k, releases (G.history trace) k ≤ 1
  /-- Whoever releases a resource is a closer, or has just found broken that very
  resource and used no other since. -/
  justified : ∀ before t k after, G.history trace = before ++ (t, .release k) :: after →
    closer t = true ∨ latest Event.used before t = some (k, true)
  /-- After a closer has returned the slot stays empty, every resource has been
  released, and no attempt is made to make one. -/
  closed : ∀ t a, closer t = true → c.threads t = .ret a → ∀ trace' c', Run M c trace' c' →
    (G.view c'.state).current = none ∧
      (∀ k, Made 1 (G.history (trace ++ trace')) k →
        releases (G.history (trace ++ trace')) k = 1) ∧
      ∀ t r, (t, .make r) ∉ G.history trace'

theorem Guards.owned (hconforms : Conforms G.usage Q c fun t ↦ { closer := closer t })
    (hinit : G.view c.state = ⟨none, some 0, false, 1⟩)
    (hclosed : ∀ t a x, closer t = true → Q t a x → x.shut = true ∧ x.phase = .outside)
    (hrun : Run M c trace c') : Owned G closer trace c' := by
  obtain ⟨x, hconforms', hkept⟩ := G.kept hconforms hinit hrun
  have hcurrent : ∀ k, Made 1 (G.history trace) k → releases (G.history trace) k = 0 →
      (G.view c'.state).current = some k ∨ Pending (G.history trace) (G.view c'.state) k := by
    intro k hmade hk
    rcases hkept.inv.unreleased ((hkept.made k).mp hmade) hk with hin | ⟨hnone, t, hmu, hphase⟩
    · exact .inl hin
    · exact .inr ⟨hnone, t, hmu, hkept.pending t k hphase⟩
  refine ⟨?_, hcurrent, ?_, hkept.inv.le_one, hkept.justified, ?_⟩
  · intro j k hj hk hj₀ hk₀
    exact hkept.inv.eq_of_unreleased ((hkept.made j).mp hj) ((hkept.made k).mp hk) hj₀ hk₀
  · intro k hmade hout hpending
    have hne : releases (G.history trace) k ≠ 0 := by
      intro hk
      rcases hcurrent k hmade hk with hin | hp
      · exact hout hin
      · exact hpending hp
    have hle := hkept.inv.le_one k
    omega
  · intro t a ht hret trace' c'' hrun'
    obtain ⟨hknows, hphase⟩ := hclosed t a (x t) ht (hconforms'.returned hret)
    have hshut := (hkept.inv.closed hknows hphase).1
    obtain ⟨x'', hconforms'', hkept''⟩ := G.kept hconforms hinit (hrun.trans hrun')
    obtain ⟨hknows'', hphase''⟩ :=
      hclosed t a (x'' t) ht (hconforms''.returned (hrun'.returned hret))
    obtain ⟨-, hnone, hreleased⟩ := hkept''.inv.closed hknows'' hphase''
    refine ⟨hnone, fun k hmade ↦ hreleased k ((hkept''.made k).mp hmade), ?_⟩
    exact G.make_notMem_of_shut hconforms' hkept.inv hshut hrun'

end Guards

end GoFilesystem.Conc.Slot
