import FkProf.Gc.Invariant

/-!
# Deleted tables are out of use

A table passed to `scheduleDelete` may still be read by any thread attached at
that moment, until the thread has gone through a safepoint or detached. So it
may only be deleted when each of these threads has, after the table was
scheduled, begun such a call (`Enters`) and in it given up the epoch
(`Passes`): `PassedIn`.

From the `push_back` on, a thread that has not done so goes through two stages
(`Waiting`). Until the first change of the epoch the table stays in
`recentGarbage` (`Stage.recent`). From then on the thread owes the countdown a
decrement, and as long as it does the epoch cannot change a second time, nor
anything be deleted (`Stage.owing`).

* `deleted_only_after_pass`: safe reclamation, in every run where no signal
  handler passes the epoch in the middle of its own thread's `safepoint`;
* `deleted_without_pass`: with that step, a table is deleted while another
  thread has done nothing since it was scheduled.
-/

namespace FkProf.Gc

variable {Tid Table : Type*}

/-- The thread takes the first step of a `safepoint` or `detachThread` under the
    mutex, or of an `ssSafepoint`. -/
def Enters (u : Tid) : State Tid Table × Label Tid Table → Prop
  | (σ, .main t) =>
    t = u ∧ ((σ.threads u).pc = .safepointLock ∨ (σ.threads u).pc = .detachLock)
  | (σ, .handler t) => t = u ∧ (σ.threads u).handler = .load
  | _ => False

/-- The thread gives up the epoch: it takes itself off the countdown (lines 207
    and 219) or off the attached threads (line 189). -/
def Passes (u : Tid) : State Tid Table × Label Tid Table → Prop
  | (σ, .main t) =>
    t = u ∧ ((σ.threads u).pc = .safepointSub ∨ (σ.threads u).pc = .detachTotal)
  | (σ, .handler t) => t = u ∧ (σ.threads u).handler.Passing
  | _ => False

/-- The thread entered a safepoint or a detachment, and then passed. -/
def PassedIn (u : Tid) (tr : List (State Tid Table × Label Tid Table)) : Prop :=
  ∃ a b, [a, b].Sublist tr ∧ Enters u a ∧ Passes u b

/-- How often a table has been passed to `scheduleDelete`. -/
def GC.scheduled [DecidableEq Table] (gc : GC Tid Table) (x : Table) : ℕ :=
  gc.recentGarbage.count x + gc.oldGarbage.count x + gc.deleted.count x

/-- The thread is in a call that goes on to pass. -/
@[simp] def Pc.Pending : Pc Table → Prop
  | .safepointRead | .safepointCompare _ | .safepointReload | .safepointStore _ | .safepointSub
  | .detachTotal => True
  | _ => False

/-- A thread that has not passed since the table was scheduled for the `n`-th
    time, and has not entered anything unless `E`. -/
structure Waiting [DecidableEq Table] (σ : State Tid Table) (u : Tid) (x : Table) (n : ℕ)
    (E : Prop) : Prop where
  attached : (σ.threads u).attached = true
  member : (σ.threads u).pc ≠ .attachAdd ∧ (σ.threads u).pc ≠ .attachLoad
  pending : (σ.threads u).pc.Pending → E
  deleted : σ.gc.deleted.count x ≤ n
  /-- Either no epoch has ended since, or the thread owes the present one. -/
  stage : ((∀ v, ¬(σ.threads v).pc.Renewing) ∧
      σ.gc.oldGarbage.count x + σ.gc.deleted.count x ≤ n) ∨
    ((σ.threads u).owes σ.gc.globalEpoch = 1 ∧ ∀ g, (σ.threads u).handler = .sub g → E)

theorem Pc.Pending.critical {pc : Pc Table} (h : pc.Pending) : pc.Critical := by
  cases pc <;> simp_all

/-! ## Traces -/

section Trace

variable {u : Tid} {tr : List (State Tid Table × Label Tid Table)}
  {a : State Tid Table × Label Tid Table}

/-- The thread entered a safepoint or a detachment. -/
def Entered (u : Tid) (tr : List (State Tid Table × Label Tid Table)) : Prop :=
  ∃ a ∈ tr, Enters u a

theorem Entered.append (h : Entered u tr) : Entered u (tr ++ [a]) := by
  obtain ⟨b, hb, he⟩ := h
  exact ⟨b, List.mem_append_left _ hb, he⟩

theorem Enters.entered (h : Enters u a) : Entered u (tr ++ [a]) :=
  ⟨a, by simp, h⟩

theorem PassedIn.append (h : PassedIn u tr) : PassedIn u (tr ++ [a]) := by
  obtain ⟨b, c, hs, hb, hc⟩ := h
  exact ⟨b, c, hs.trans (List.sublist_append_left ..), hb, hc⟩

theorem Entered.passedIn (h : Entered u tr) (ha : Passes u a) : PassedIn u (tr ++ [a]) := by
  obtain ⟨b, hb, he⟩ := h
  exact ⟨b, a, (List.singleton_sublist.2 hb).append (List.Sublist.refl [a]), he, ha⟩

/-- Entering takes a step of the thread or of its handler. -/
theorem Enters.label (h : Enters u a) :
    a.2 = .main u ∨ a.2 = .handler u := by
  obtain ⟨σ, l⟩ := a
  cases l <;> simp only [Enters] at h
  · exact .inl (by rw [h.1])
  · exact .inr (by rw [h.1])

end Trace

/-! ## Single steps -/

section Main

variable {gc gc' : GC Tid Table} {t : Tid} {th th' : Thread Table}

/-- An attached thread stays so, and goes on owing the epoch, until it passes. -/
theorem mainStep_waiting (hok : th.Ok gc.globalEpoch) (hoff : th.handler = .off)
    (ha : th.attached = true) (hm : th.pc ≠ .attachAdd ∧ th.pc ≠ .attachLoad)
    (hp : th.pc ≠ .safepointSub ∧ th.pc ≠ .detachTotal)
    (hs : mainStep gc t th = some (gc', th')) :
    th'.attached = true ∧ (th'.pc ≠ .attachAdd ∧ th'.pc ≠ .attachLoad) ∧ th'.handler = .off ∧
      (th'.pc.Pending → th.pc.Pending ∨ th.pc = .safepointLock ∨ th.pc = .detachLock) ∧
      th'.owes gc.globalEpoch = th.owes gc.globalEpoch := by
  obtain ⟨l, a, pc, hd⟩ := th
  obtain ⟨hc, hk, -, -, -⟩ := hok
  subst hoff
  cases pc <;>
    simp only [mainStep, Option.map_eq_some_iff, Option.some.injEq, Prod.mk.injEq,
      reduceCtorEq, Pc.Counts, Pc.Knows] at hs hc hk
  case attachLock | detachLock | safepointLock | scheduleLock =>
    obtain ⟨gc₁, hl, rfl, rfl⟩ := hs
    simp_all [Thread.owes]
  case epochDelete =>
    split at hs <;> obtain ⟨rfl, rfl⟩ := Prod.mk.inj (Option.some.inj hs) <;>
      simp_all [Thread.owes]
  case epochMove c =>
    obtain ⟨rfl, rfl⟩ := hs
    cases c <;> simp_all [Caller.next, Thread.owes]
  all_goals
    obtain ⟨rfl, rfl⟩ := hs
    (try split_ifs) <;> simp_all [Thread.owes]

end Main

/-! ## Waiting -/

section Waiting

variable [Fintype Tid] [DecidableEq Tid] [DecidableEq Table] {σ : State Tid Table} {t u : Tid}
  {x : Table} {n : ℕ} {E E' : Prop}

omit [Fintype Tid] [DecidableEq Tid] in
theorem Waiting.mono (h : Waiting σ u x n E) (hE : E → E') : Waiting σ u x n E' :=
  ⟨h.attached, h.member, fun hp => hE (h.pending hp), h.deleted,
    h.stage.imp_right fun hs => ⟨hs.1, fun g hg => hE (hs.2 g hg)⟩⟩

/-- A step of a call keeps a thread waiting, if it leaves the thread as it is as
    far as its waiting is concerned. -/
theorem Waiting.main (h : Waiting σ u x n E) (hI : Inv σ) {p : GC Tid Table × Thread Table}
    (hs : mainStep σ.gc t (σ.threads t) = some p) (hI' : Inv (σ.set t p)) (hE : E → E')
    (ha : ((σ.set t p).threads u).attached = true)
    (hm : ((σ.set t p).threads u).pc ≠ .attachAdd ∧ ((σ.set t p).threads u).pc ≠ .attachLoad)
    (hp : ((σ.set t p).threads u).pc.Pending → E')
    (hh : ((σ.set t p).threads u).handler = (σ.threads u).handler)
    (ho : ((σ.set t p).threads u).owes σ.gc.globalEpoch = (σ.threads u).owes σ.gc.globalEpoch) :
    Waiting (σ.set t p) u x n E' := by
  obtain ⟨gc, th⟩ := p
  obtain ⟨hstay, hcount⟩ := mainStep_garbage x hs
  have hrenew := mainStep_renewing hs
  have hothers : ∀ v ≠ t, ¬((σ.set t (gc, th)).threads v).pc.Renewing := fun v hv hr => by
    rw [σ.set_threads_of_ne _ _ hv] at hr
    exact hI.alone hs hv hr.critical
  by_cases hadv : (σ.threads t).pc.Advancing
  · -- Nobody owes anything: no epoch has ended since the table was scheduled.
    have h0 := hI.settled t hadv
    rcases h.stage with ⟨hr, hle⟩ | ⟨h1, -⟩
    · have hle' : gc.oldGarbage.count x + gc.deleted.count x ≤ n := hcount (hr t) ▸ hle
      refine ⟨ha, hm, hp, by simp only [State.set_gc]; omega, ?_⟩
      cases hpc : (σ.threads t).pc <;> simp only [hpc, Pc.Advancing] at hadv
      case epochDelete c =>
        refine .inl ⟨fun v hv => ?_, hle'⟩
        by_cases hvt : v = t
        · subst hvt
          rw [State.set_threads_self] at hv
          simpa [hpc] using hrenew hv
        · exact hothers v hvt hv
      case epochAdvance c =>
        have hg : gc.globalEpoch = σ.gc.globalEpoch + 1 := by
          simp only [mainStep, hpc, Option.some.injEq, Prod.mk.injEq] at hs
          rw [← hs.1]
        refine .inr ⟨?_, fun g hg => ?_⟩
        · rw [State.set_gc, hg]
          exact Thread.owes_succ (hI'.ok u).counts ha hm.1 (ho.trans (h0 u))
        · have := (hI.ok u).owes_of_sub (hh ▸ hg)
          rw [h0 u] at this
          omega
    · rw [h0 u] at h1
      omega
  · obtain ⟨hg, hd⟩ := hstay hadv
    refine ⟨ha, hm, hp, hd.symm ▸ h.deleted, ?_⟩
    rcases h.stage with ⟨hr, hle⟩ | ⟨h1, hsub⟩
    · refine .inl ⟨fun v hv => ?_, hcount (hr t) ▸ hle⟩
      by_cases hvt : v = t
      · subst hvt
        rw [State.set_threads_self] at hv
        rcases hrenew hv with ⟨c, hc⟩ | hc
        · exact hadv (by simp [hc])
        · exact hr v hc
      · exact hothers v hvt hv
    · refine .inr ⟨?_, fun g hg => hE (hsub g (hh ▸ hg))⟩
      rw [State.set_gc, hg, ho, h1]

omit [Fintype Tid] in
/-- A step that leaves the garbage and the epoch alone keeps a thread waiting, if
    it does so as far as the thread itself is concerned. -/
theorem Waiting.lockFree (h : Waiting σ u x n E) {th : Thread Table} {r : ℤ} (hE : E → E')
    (ha : th.attached = (σ.threads t).attached)
    (hpc : th.pc = (σ.threads t).pc ∨ ¬th.pc.Critical)
    (hstage : t = u → (σ.threads u).owes σ.gc.globalEpoch = 1 →
      (∀ g, (σ.threads u).handler = .sub g → E) →
      th.owes σ.gc.globalEpoch = 1 ∧ ∀ g, th.handler = .sub g → E') :
    Waiting (σ.set t ({ σ.gc with remaining := r }, th)) u x n E' := by
  have hrenew : ∀ v, ((σ.set t ({ σ.gc with remaining := r }, th)).threads v).pc.Renewing →
      (σ.threads v).pc.Renewing := fun v hv => by
    by_cases hvt : v = t
    · subst hvt
      rw [State.set_threads_self] at hv
      rcases hpc with hpc | hn
      · rwa [hpc] at hv
      · exact absurd hv.critical hn
    · rwa [σ.set_threads_of_ne _ _ hvt] at hv
  have hrecent := fun hr : ∀ v, ¬(σ.threads v).pc.Renewing => fun v hv => hr v (hrenew v hv)
  by_cases htu : u = t
  · subst htu
    refine ⟨?_, ?_, ?_, h.deleted, ?_⟩
    · rw [State.set_threads_self]
      exact ha.trans h.attached
    · rw [State.set_threads_self]
      rcases hpc with hpc | hn
      · simpa only [hpc] using h.member
      · exact ⟨fun hc : th.pc = _ => hn (by simp [hc]), fun hc : th.pc = _ => hn (by simp [hc])⟩
    · rw [State.set_threads_self]
      rcases hpc with hpc | hn
      · exact fun hp => hE (h.pending (hpc ▸ hp))
      · exact fun hp => absurd hp.critical hn
    · rw [State.set_threads_self]
      rcases h.stage with ⟨hr, hle⟩ | ⟨h1, hsub⟩
      · exact .inl ⟨hrecent hr, hle⟩
      · exact .inr (hstage rfl h1 hsub)
  · have hu := σ.set_threads_of_ne t ({ σ.gc with remaining := r }, th) htu
    refine ⟨hu ▸ h.attached, hu ▸ h.member, fun hp => hE (h.pending (hu ▸ hp)), h.deleted, ?_⟩
    rcases h.stage with ⟨hr, hle⟩ | ⟨h1, hsub⟩
    · exact .inl ⟨hrecent hr, hle⟩
    · exact .inr ⟨by rw [hu]; exact h1, fun g hg => hE (hsub g (hu ▸ hg))⟩

omit [Fintype Tid] in
/-- A call begins. -/
theorem Waiting.call (h : Waiting σ u x n E) {pc : Pc Table} (hE : E → E')
    (hfree : (σ.threads t).Free) (hpc : ¬pc.Critical)
    (hc : pc.Counts (σ.threads t).attached) : Waiting (σ.call t pc) u x n E' := by
  refine h.lockFree hE rfl (.inr hpc) fun htu h1 hsub => ⟨?_, fun g hg => hE (hsub g (htu ▸ hg))⟩
  subst htu
  rw [← h1]
  obtain ⟨hidle, hoff⟩ := hfree
  cases pc <;> simp_all [Thread.owes]

/-- A step of a call either makes a thread pass that has entered, or keeps it
    waiting. -/
theorem Waiting.mainStep (h : Waiting σ u x n E) (hI : Inv σ) (hoff : (σ.threads t).handler = .off)
    {p : GC Tid Table × Thread Table} (hs : mainStep σ.gc t (σ.threads t) = some p)
    (hI' : Inv (σ.set t p)) (hE : E → E') (hent : Enters u (σ, .main t) → E') :
    E ∧ Passes u (σ, .main t) ∨ Waiting (σ.set t p) u x n E' := by
  by_cases htu : u = t
  · subst htu
    by_cases hpass : Passes u (σ, .main u)
    · refine .inl ⟨h.pending ?_, hpass⟩
      rcases hpass.2 with hpc | hpc <;> simp [hpc]
    · have hp : (σ.threads u).pc ≠ .safepointSub ∧ (σ.threads u).pc ≠ .detachTotal :=
        ⟨fun hc => hpass ⟨rfl, .inl hc⟩, fun hc => hpass ⟨rfl, .inr hc⟩⟩
      obtain ⟨ha, hm, hh, hpend, ho⟩ := mainStep_waiting (hI.ok u) hoff h.attached h.member hp hs
      refine .inr (h.main hI hs hI' hE ?_ ?_ ?_ ?_ ?_) <;> rw [State.set_threads_self]
      · exact ha
      · exact hm
      · intro hp'
        rcases hpend hp' with hp' | hp'
        · exact hE (h.pending hp')
        · exact hent ⟨rfl, hp'⟩
      · rw [hh, hoff]
      · exact ho
  · have hu := σ.set_threads_of_ne t p htu
    exact .inr (h.main hI hs hI' hE (hu ▸ h.attached) (hu ▸ h.member)
      (fun hp => hE (h.pending (hu ▸ hp))) (by rw [hu]) (by rw [hu]))

/-- A step of a handler either makes a thread pass that has entered, or keeps it
    waiting. -/
theorem Waiting.handlerStep (h : Waiting σ u x n E) (hI : Inv σ)
    {p : GC Tid Table × Thread Table} (hs : handlerStep σ.gc (σ.threads t) = some p)
    (hE : E → E') (hent : Enters u (σ, .handler t) → E') :
    E ∧ Passes u (σ, .handler t) ∨ Waiting (σ.set t p) u x n E' := by
  cases hd : (σ.threads t).handler <;>
    simp only [Gc.handlerStep, hd, Option.some.injEq, reduceCtorEq] at hs <;> subst hs
  case load =>
    refine .inr (h.lockFree hE rfl (.inl rfl) fun htu h1 _ => ?_)
    subst htu
    refine ⟨?_, fun _ _ => hent ⟨rfl, hd⟩⟩
    rw [← h1]
    split <;> simp only [Thread.owes, hd]
  case sub g =>
    by_cases htu : t = u ∧ (σ.threads u).owes σ.gc.globalEpoch = 1 ∧
        ∀ g, (σ.threads u).handler = .sub g → E
    · obtain ⟨rfl, -, hsub⟩ := htu
      exact .inl ⟨hsub g hd, rfl, by simp [hd]⟩
    · exact .inr (h.lockFree hE rfl (.inl rfl) fun htu' h1 hsub => absurd ⟨htu', h1, hsub⟩ htu)
  case store g =>
    refine .inr (h.lockFree hE rfl (.inl rfl) fun htu h1 _ => ⟨?_, by simp⟩)
    subst htu
    have hp := (hI.ok t).published (by simp [hd])
    rw [← h1]
    cases hpc : (σ.threads t).pc <;> simp_all [Thread.owes, Thread.Published]

/-- A step either makes a thread pass that has entered, or keeps it waiting. -/
theorem Waiting.next (h : Waiting σ u x n E) (hI : Inv σ) {σ' : State Tid Table}
    {l : Label Tid Table} (hn : (system Tid Table).next σ l = some σ') (hI' : Inv σ')
    (hE : E → E') (hent : Enters u (σ, l) → E') :
    E ∧ Passes u (σ, l) ∨ Waiting σ' u x n E' := by
  cases l <;> simp only [system, State.next, Option.ite_none_right_eq_some, Option.some.injEq,
    Option.map_eq_some_iff] at hn
  case attachThread t =>
    obtain ⟨⟨hf, ha⟩, rfl⟩ := hn
    exact .inr (h.call hE hf (by simp) ha)
  case detachThread t =>
    obtain ⟨⟨hf, ha⟩, rfl⟩ := hn
    split
    · exact .inr (h.call hE hf (by simp) ha)
    · exact .inr (h.mono hE)
  case safepoint t =>
    obtain ⟨⟨hf, ha⟩, rfl⟩ := hn
    exact .inr (h.call hE hf (by simp) ha)
  case scheduleDelete t x =>
    obtain ⟨hf, rfl⟩ := hn
    exact .inr (h.call hE hf (by simp) trivial)
  case main t =>
    obtain ⟨hoff, p, hs, rfl⟩ := hn
    exact h.mainStep hI hoff hs hI' hE hent
  case signal t =>
    obtain ⟨⟨hoff, hp⟩, rfl⟩ := hn
    refine .inr (h.lockFree hE rfl (.inl rfl) fun htu h1 _ => ⟨?_, by simp⟩)
    subst htu
    rw [← h1]
    simp only [Thread.owes, hoff]
  case handler t =>
    obtain ⟨p, hs, rfl⟩ := hn
    exact h.handlerStep hI hs hE hent

/-- Once the table has been pushed, every thread attached by then is waiting. -/
theorem Inv.waiting (h : Inv σ) (hpc : (σ.threads t).pc = .schedulePush x)
    (hu : (σ.threads u).attached = true) :
    Waiting (σ.set t ({ σ.gc with recentGarbage := x :: σ.gc.recentGarbage },
      { σ.threads t with pc := .unlock })) u x (σ.gc.scheduled x) E := by
  have hothers : ∀ v ≠ t, ¬(σ.threads v).pc.Critical := fun v hv hc =>
    hv (h.unique hc (by simp [hpc]))
  set σ' := σ.set t ({ σ.gc with recentGarbage := x :: σ.gc.recentGarbage },
    { σ.threads t with pc := .unlock }) with hσ'
  have hpcs : ∀ v, (σ'.threads v).pc = .unlock ∨ ¬(σ'.threads v).pc.Critical := fun v => by
    by_cases hv : v = t
    · left
      rw [hv, hσ', State.set_threads_self]
    · right
      rw [hσ', σ.set_threads_of_ne _ _ hv]
      exact hothers v hv
  refine ⟨?_, ?_, fun hp => ?_, ?_, .inl ⟨fun v hr => ?_, ?_⟩⟩
  · by_cases hut : u = t
    · subst hut
      rwa [hσ', State.set_threads_self]
    · rwa [hσ', σ.set_threads_of_ne _ _ hut]
  · rcases hpcs u with hc | hc
    · simp [hc]
    · exact ⟨fun hp => hc (by simp [hp]), fun hp => hc (by simp [hp])⟩
  · rcases hpcs u with hc | hc
    · simp [hc] at hp
    · exact absurd hp.critical hc
  · simp only [hσ', State.set_gc, GC.scheduled]
    omega
  · rcases hpcs v with hc | hc
    · simp [hc] at hr
    · exact absurd hr.critical hc
  · simp only [hσ', State.set_gc, GC.scheduled]
    omega

end Waiting

/-! ## Safe reclamation -/

variable [Fintype Tid] [DecidableEq Tid] [DecidableEq Table]

/-- In a run where no handler passes the epoch in the middle of its own thread's
    `safepoint`, a table passed to `scheduleDelete` is only deleted when every
    thread attached at that moment has gone through a safepoint or detached. -/
theorem deleted_only_after_pass {σ₁ σ₂ σ₃ : State Tid Table}
    {tr₁ tr₂ : List (State Tid Table × Label Tid Table)} {t u : Tid} {x : Table}
    (h₁ : (system Tid Table).Run Undisturbed State.initial tr₁ σ₁)
    (hpush : (σ₁.threads t).pc = .schedulePush x)
    (hn : (system Tid Table).next σ₁ (.main t) = some σ₂)
    (h₂ : (system Tid Table).Run Undisturbed σ₂ tr₂ σ₃)
    (hdel : σ₁.gc.scheduled x < σ₃.gc.deleted.count x)
    (hu : (σ₁.threads u).attached = true) : PassedIn u tr₂ := by
  have hI₁ : Inv σ₁ := inv_of_run .initial h₁
  have hI₂ : Inv σ₂ := hI₁.next (by simp [Undisturbed, Disturbing]) hn
  have hw : Waiting σ₂ u x (σ₁.gc.scheduled x)
      (Entered u ([] : List (State Tid Table × Label Tid Table))) := by
    simp only [system, State.next, Option.ite_none_right_eq_some, Option.map_eq_some_iff,
      mainStep, hpush, Option.some.injEq] at hn
    obtain ⟨-, p, rfl, rfl⟩ := hn
    exact hI₁.waiting hpush hu
  -- Along the run after the push, the thread waits until it has passed.
  have hrun : Inv σ₃ ∧ (PassedIn u tr₂ ∨ Waiting σ₃ u x (σ₁.gc.scheduled x) (Entered u tr₂)) := by
    refine h₂.traceInvariant (I := fun tr σ => Inv σ ∧
      (PassedIn u tr ∨ Waiting σ u x (σ₁.gc.scheduled x) (Entered u tr))) ?_ ⟨hI₂, .inr hw⟩
    rintro tr σ l σ' ⟨hI, hp | hw⟩ hl hn
    · exact ⟨hI.next hl hn, .inl hp.append⟩
    · have hI' := hI.next hl hn
      refine ⟨hI', ?_⟩
      rcases hw.next hI hn hI' Entered.append Enters.entered with ⟨he, hp⟩ | hw'
      · exact .inl (he.passedIn hp)
      · exact .inr hw'
  rcases hrun.2 with hp | hw
  · exact hp
  · exact absurd hw.deleted (by omega)

/-! ## Runs -/

/-- The call of `scheduleDelete`, up to the `push_back`. -/
def deleteSchedule (t : Tid) (x : Table) : List (Label Tid Table) :=
  [.scheduleDelete t x, .main t]

/-- A call of `safepoint` that ends the epoch, with `n` tables to delete, and a
    handler of the thread passing the epoch between the reading of `localEpoch`
    and the comparison. -/
def disturbedSchedule (t : Tid) (n : ℕ) : List (Label Tid Table) :=
  [.safepoint t, .main t, .main t, .signal t, .handler t, .handler t, .handler t] ++
    List.replicate (n + 9) (.main t)

/-- A thread attaches, schedules a table and ends two epochs: the table is
    deleted, and the thread has gone through a safepoint. -/
theorem deleted_only_after_pass_single :
    ∃ (σ σ' : State (Fin 1) Unit) (tr : List (State (Fin 1) Unit × Label (Fin 1) Unit)),
      (system (Fin 1) Unit).Run Undisturbed σ tr σ' ∧ 0 < σ'.gc.deleted.count () ∧
        PassedIn 0 tr := by
  have hrun : (((system (Fin 1) Unit).exec Undisturbed State.initial
      (attachSchedule 0 ++ deleteSchedule 0 ())).any fun σ₁ =>
        decide ((σ₁.threads 0).pc = .schedulePush () ∧ (σ₁.threads 0).attached = true) &&
        ((system (Fin 1) Unit).next σ₁ (.main 0)).any fun σ₂ =>
          ((system (Fin 1) Unit).exec Undisturbed σ₂
            (.main 0 :: (safepointSchedule 0 0 ++ safepointSchedule 0 1))).any fun σ₃ =>
              decide (σ₁.gc.scheduled () < σ₃.gc.deleted.count ())) = true := by decide
  simp only [Option.any_eq_true, Bool.and_eq_true, decide_eq_true_eq] at hrun
  obtain ⟨σ₁, h₁, ⟨hpc, hu⟩, σ₂, hn, σ₃, h₂, hdel⟩ := hrun
  obtain ⟨tr₁, h₁, -⟩ := System.run_of_exec h₁
  obtain ⟨tr₂, h₂, -⟩ := System.run_of_exec h₂
  exact ⟨σ₂, σ₃, tr₂, h₂, by omega, deleted_only_after_pass h₁ hpc hn h₂ hdel hu⟩

/-- With a handler passing the epoch in the middle of its own thread's
    `safepoint`, twice, a table is deleted while another thread has not made a
    step since it was scheduled. -/
theorem deleted_without_pass :
    ¬∀ (σ₁ σ₂ σ₃ : State (Fin 2) Unit) (tr₁ tr₂ : List (State (Fin 2) Unit × Label (Fin 2) Unit))
      (t u : Fin 2) (x : Unit),
      (system (Fin 2) Unit).Run System.anyStep State.initial tr₁ σ₁ →
      (σ₁.threads t).pc = .schedulePush x →
      (system (Fin 2) Unit).next σ₁ (.main t) = some σ₂ →
      (system (Fin 2) Unit).Run System.anyStep σ₂ tr₂ σ₃ →
      σ₁.gc.scheduled x < σ₃.gc.deleted.count x →
      (σ₁.threads u).attached = true → PassedIn u tr₂ := by
  intro hall
  have hrun : (((system (Fin 2) Unit).exec System.anyStep State.initial
      (attachSchedule 0 ++ attachSchedule 1 ++ deleteSchedule 0 ())).any fun σ₁ =>
        decide ((σ₁.threads 0).pc = .schedulePush () ∧ (σ₁.threads 1).attached = true) &&
        ((system (Fin 2) Unit).next σ₁ (.main 0)).any fun σ₂ =>
          ((system (Fin 2) Unit).exec System.anyStep σ₂
            (.main 0 :: (disturbedSchedule 0 0 ++ disturbedSchedule 0 1))).any fun σ₃ =>
              decide (σ₁.gc.scheduled () < σ₃.gc.deleted.count ())) = true := by decide
  simp only [Option.any_eq_true, Bool.and_eq_true, decide_eq_true_eq] at hrun
  obtain ⟨σ₁, h₁, ⟨hpc, hu⟩, σ₂, hn, σ₃, h₂, hdel⟩ := hrun
  obtain ⟨tr₁, h₁, -⟩ := System.run_of_exec h₁
  obtain ⟨tr₂, h₂, htr₂⟩ := System.run_of_exec h₂
  obtain ⟨a, b, hsub, he, -⟩ := hall σ₁ σ₂ σ₃ tr₁ tr₂ 0 1 () h₁ hpc hn h₂ hdel hu
  -- Thread 1 makes no step in this schedule.
  have ha : a.2 ∈ tr₂.map Prod.snd := List.mem_map_of_mem (hsub.subset (by simp))
  rw [htr₂] at ha
  rcases he.label with hl | hl <;> rw [hl] at ha <;>
    simp [disturbedSchedule] at ha

end FkProf.Gc
