import KernelDrivers.Framework.CriticalSection
import KernelDrivers.Framework.ForkJoin

namespace KernelDrivers.Framework

/-- Where a forked process is that makes one call. -/
inductive Caller (R : Type*) where
  | call
  | inside
  | returned (r : R)

variable {σ D C L R A ρ : Type*}

/-- Processes that make one call each of code around a lock: process `p` asks `arg p`, and reports
what it has been answered. -/
def callers (G : Guard σ) (S : Section D C L R) (arg : Nat → C) (report : R → ρ) :
    Children (Shared σ D C L R Nat) (Caller R) Unit ρ where
  first := .call
  step s p c _ :=
    match c with
    | .call => (Section.step G S s (.invoke p (arg p)), .inl .inside)
    | .inside =>
      let s := Section.step G S s (.run p)
      match s.client p, s.history.getLast? with
      | none, some (.respond _ _ r) => (s, .inl (.returned r))
      | _, _ => (s, .inl .inside)
    | .returned r => (s, .inr (report r))

namespace Callers

/-- Code around a lock that nobody is in. -/
structure Rest (G : Guard σ) (S : Section D C L R) (spec : SeqSpec A C R) (rep : A → D → Prop)
    (mid : A → C → D → L → Prop) where
  shared : Shared σ D C L R Nat
  inv : Section.Inv G S spec rep mid shared
  idle : ∀ p, shared.client p = none

variable (G : Guard σ) (S : Section D C L R) (arg : Nat → C) (report : R → ρ)
variable (spec : SeqSpec A C R) (rep : A → D → Prop) (mid : A → C → D → L → Prop)

/-- What process `p` has to do with the code around the lock, and with what has been answered. -/
def Fits (s : Shared σ D C L R Nat) (answers : List (Nat × R)) (out : List (Nat × ρ)) (p : Nat) :
    Option (Caller R) → Prop
  | none => s.client p = none ∧ ∀ r, (p, r) ∈ answers → (p, report r) ∈ out
  | some .call => s.client p = none ∧ p ∉ answers.map Prod.fst
  | some .inside =>
    (∃ c, s.client p = some c ∧ c.call = arg p) ∧ p ∉ answers.map Prod.fst
  | some (.returned r) => s.client p = none ∧ (p, r) ∈ answers

/-- The completed calls are those of before and those of the processes that have got `answers`. -/
structure Going (base : List (C × R)) (s : Shared σ D C L R Nat)
    (child : Nat → Option (Caller R)) (out : List (Nat × ρ)) (answers : List (Nat × R)) :
    Prop where
  inv : Section.Inv G S spec rep mid s
  log : (completions s.history).map Completed.exchange =
    base ++ answers.map fun a => (arg a.1, a.2)
  once : (answers.map Prod.fst).Nodup
  told : ∀ e ∈ out, ∃ r, (e.1, r) ∈ answers ∧ e.2 = report r
  fits : ∀ p, Fits arg report s answers out p (child p)

variable {G S arg report spec rep mid}
variable {base : List (C × R)} {s s' : Shared σ D C L R Nat} {child : Nat → Option (Caller R)}
variable {out out' : List (Nat × ρ)} {answers answers' : List (Nat × R)} {p : Nat}

/-- What other processes do does not matter. -/
theorem Fits.mono {c : Option (Caller R)} (h : Fits arg report s answers out p c)
    (hclient : s'.client p = s.client p) (hanswers : ∀ r, (p, r) ∈ answers' ↔ (p, r) ∈ answers)
    (hout : ∀ e ∈ out, e ∈ out') : Fits arg report s' answers' out' p c := by
  have hnot : p ∉ answers.map Prod.fst → p ∉ answers'.map Prod.fst := by
    intro hnot hmem
    obtain ⟨⟨q, r⟩, ha, rfl⟩ := List.mem_map.mp hmem
    exact hnot (List.mem_map_of_mem ((hanswers r).mp ha))
  cases c with
  | none =>
    exact ⟨hclient.trans h.1, fun r ha => hout _ (h.2 r ((hanswers r).mp ha))⟩
  | some c =>
    cases c with
    | call => exact ⟨hclient.trans h.1, hnot h.2⟩
    | inside =>
      obtain ⟨c, hc, hcall⟩ := h.1
      exact ⟨⟨c, hclient.trans hc, hcall⟩, hnot h.2⟩
    | returned r => exact ⟨hclient.trans h.1, (hanswers r).mpr h.2⟩

/-- It is enough to look at the process that moves. -/
theorem fits_update (h : ∀ q, Fits arg report s answers out q (child q)) {c : Option (Caller R)}
    (hself : Fits arg report s' answers' out' p c)
    (hclient : ∀ q, q ≠ p → s'.client q = s.client q)
    (hanswers : ∀ q, q ≠ p → ∀ r, (q, r) ∈ answers' ↔ (q, r) ∈ answers)
    (hout : ∀ e ∈ out, e ∈ out') (q : Nat) :
    Fits arg report s' answers' out' q (Function.update child p c q) := by
  by_cases hq : q = p
  · subst hq
    rw [Function.update_self]
    exact hself
  · rw [Function.update_of_ne hq]
    exact (h q).mono (hclient q hq) (hanswers q hq) hout

variable (report) in
/-- The process inside goes on, or gets its answer. -/
theorem inside_cases (hs : ∃ c, s.client p = some c ∧ c.call = arg p) (env : Unit) :
    (∃ c, c.call = arg p ∧
      (Section.step G S s (.run p)).client = Function.update s.client p (some c) ∧
      (Section.step G S s (.run p)).history = s.history ∧
      (callers G S arg report).step s p .inside env =
        (Section.step G S s (.run p), .inl .inside)) ∨
    (∃ id r, (Section.step G S s (.run p)).client = Function.update s.client p none ∧
      (Section.step G S s (.run p)).history = s.history ++ [.respond id (arg p) r] ∧
      (callers G S arg report).step s p .inside env =
        (Section.step G S s (.run p), .inl (.returned r))) := by
  obtain ⟨c, hc, hcall⟩ := hs
  have hstep : Section.step G S s (.run p) = Section.advance G S s p c := by
    simp only [Section.step, hc]
  rcases Section.advance_cases (G := G) (S := S) hc with ⟨c', hsame, hclient, hhistory⟩ |
    ⟨r, hclient, hhistory⟩
  · rw [← hstep] at hclient hhistory
    refine Or.inl ⟨c', hsame.trans hcall, hclient, hhistory, ?_⟩
    simp [callers, hclient]
  · rw [← hstep] at hclient hhistory
    rw [hcall] at hhistory
    refine Or.inr ⟨c.id, r, hclient, hhistory, ?_⟩
    simp [callers, hclient, hhistory]

theorem Going.fork (h : Going G S arg report spec rep mid base s child out answers)
    (hnone : child p = none) (hnot : p ∉ out.map Prod.fst) :
    Going G S arg report spec rep mid base s (Function.update child p (some .call)) out
      answers := by
  have hp := h.fits p
  rw [hnone] at hp
  have hfresh : p ∉ answers.map Prod.fst := by
    intro hmem
    obtain ⟨⟨q, r⟩, ha, rfl⟩ := List.mem_map.mp hmem
    exact hnot (List.mem_map_of_mem (hp.2 r ha))
  exact ⟨h.inv, h.log, h.once, h.told, fits_update h.fits ⟨hp.1, hfresh⟩ (fun _ _ => rfl)
    (fun _ _ _ => Iff.rfl) (fun _ he => he)⟩

theorem Going.enter (h : Going G S arg report spec rep mid base s child out answers)
    (hc : child p = some .call) :
    Going G S arg report spec rep mid base (Section.step G S s (.invoke p (arg p)))
      (Function.update child p (some .inside)) out answers := by
  have hp := h.fits p
  rw [hc] at hp
  obtain ⟨hclient, hfresh⟩ := hp
  have hinv := Section.invoke_inv h.inv p (arg p)
  have hstep : Section.step G S s (.invoke p (arg p)) = Section.goto
      { s with history := s.history ++ [.invoke s.nextId (arg p)], nextId := s.nextId + 1 }
      p ⟨s.nextId, arg p, .enter⟩ := by
    simp only [Section.step, hclient]
  rw [hstep] at hinv ⊢
  refine ⟨hinv, ?_, h.once, h.told, fits_update h.fits ⟨⟨_, Function.update_self .., rfl⟩, hfresh⟩
    (fun q hq => Function.update_of_ne hq ..) (fun _ _ _ => Iff.rfl) (fun _ he => he)⟩
  rw [← h.log]
  exact congrArg _ (completions_invoke _ _ _)

theorem Going.stay (h : Going G S arg report spec rep mid base s child out answers)
    (hc : child p = some .inside) (hinv : Section.Inv G S spec rep mid s')
    {c : Client C L R} (hcall : c.call = arg p)
    (hclient : s'.client = Function.update s.client p (some c))
    (hhistory : s'.history = s.history) :
    Going G S arg report spec rep mid base s' (Function.update child p (some .inside)) out
      answers := by
  have hp := h.fits p
  rw [hc] at hp
  refine ⟨hinv, hhistory ▸ h.log, h.once, h.told, fits_update h.fits ⟨⟨c, ?_, hcall⟩, hp.2⟩ ?_
    (fun _ _ _ => Iff.rfl) (fun _ he => he)⟩
  · rw [hclient, Function.update_self]
  · intro q hq
    rw [hclient, Function.update_of_ne hq]

theorem Going.answer (h : Going G S arg report spec rep mid base s child out answers)
    (hc : child p = some .inside) (hinv : Section.Inv G S spec rep mid s') {id : Nat} {r : R}
    (hclient : s'.client = Function.update s.client p none)
    (hhistory : s'.history = s.history ++ [.respond id (arg p) r]) :
    Going G S arg report spec rep mid base s' (Function.update child p (some (.returned r))) out
      (answers ++ [(p, r)]) := by
  have hp := h.fits p
  rw [hc] at hp
  have hother (q : Nat) (hq : q ≠ p) (r' : R) :
      (q, r') ∈ answers ++ [(p, r)] ↔ (q, r') ∈ answers := by
    simp [hq]
  refine ⟨hinv, ?_, ?_, ?_, fits_update h.fits ⟨?_, List.mem_append_right _ ?_⟩ ?_ hother
    (fun _ he => he)⟩
  · rw [hhistory, completions_respond, List.map_append, h.log, List.map_append, List.append_assoc]
    rfl
  · rw [List.map_append]
    apply List.nodup_append.mpr
    refine ⟨h.once, List.nodup_singleton p, ?_⟩
    intro a ha b hb hab
    obtain rfl : b = p := List.mem_singleton.mp hb
    exact hp.2 (hab ▸ ha)
  · intro e he
    obtain ⟨r', ha, hr⟩ := h.told e he
    exact ⟨r', List.mem_append_left _ ha, hr⟩
  · rw [hclient, Function.update_self]
  · exact List.mem_singleton_self _
  · intro q hq
    rw [hclient, Function.update_of_ne hq]

theorem Going.leave (h : Going G S arg report spec rep mid base s child out answers) {r : R}
    (hc : child p = some (.returned r)) :
    Going G S arg report spec rep mid base s (Function.update child p none)
      (out ++ [(p, report r)]) answers := by
  have hp := h.fits p
  rw [hc] at hp
  have hall (r' : R) (ha : (p, r') ∈ answers) : (p, report r') ∈ out ++ [(p, report r)] := by
    obtain rfl : r' = r :=
      congrArg Prod.snd (List.inj_on_of_nodup_map h.once ha hp.2 rfl)
    exact List.mem_append_right _ (List.mem_singleton_self _)
  refine ⟨h.inv, h.log, h.once, ?_, fits_update h.fits ⟨hp.1, hall⟩ (fun _ _ => rfl)
    (fun _ _ _ => Iff.rfl) (fun _ he => List.mem_append_left _ he)⟩
  intro e he
  rcases List.mem_append.mp he with hin | hnew
  · exact h.told e hin
  · obtain rfl := List.mem_singleton.mp hnew
    exact ⟨r, hp.2, rfl⟩

/-- What holds of the processes, whatever they have been answered. -/
def Served (G : Guard σ) (S : Section D C L R) (arg : Nat → C) (report : R → ρ)
    (spec : SeqSpec A C R) (rep : A → D → Prop) (mid : A → C → D → L → Prop) (base : List (C × R))
    (s : Shared σ D C L R Nat) (child : Nat → Option (Caller R)) (out : List (Nat × ρ)) : Prop :=
  ∃ answers, Going G S arg report spec rep mid base s child out answers

variable (H : Section.Simulates S spec rep mid)
include H

theorem keeps (G : Guard σ) (arg : Nat → C) (report : R → ρ) (base : List (C × R)) :
    Family.Keeps (callers G S arg report) (Served G S arg report spec rep mid base) where
  fork s child out p h hnone hnot := by
    obtain ⟨answers, h⟩ := h
    exact ⟨answers, h.fork hnone hnot⟩
  goes s child out p c env s' c' h hc hstep := by
    obtain ⟨answers, h⟩ := h
    cases c with
    | call =>
      cases hstep
      exact ⟨answers, h.enter hc⟩
    | inside =>
      have hinv := Section.step_inv H h.inv (.run p)
      have hp := h.fits p
      rw [hc] at hp
      rcases inside_cases (G := G) (S := S) report hp.1 env with
        ⟨d, hcall, hclient, hhistory, hchild⟩ | ⟨id, r, hclient, hhistory, hchild⟩
      · cases hchild.symm.trans hstep
        exact ⟨answers, h.stay hc hinv hcall hclient hhistory⟩
      · cases hchild.symm.trans hstep
        exact ⟨_, h.answer hc hinv hclient hhistory⟩
    | returned r => cases hstep
  ends s child out p c env s' r h hc hstep := by
    obtain ⟨answers, h⟩ := h
    cases c with
    | call => cases hstep
    | inside =>
      have hp := h.fits p
      rw [hc] at hp
      rcases inside_cases (G := G) (S := S) report hp.1 env with
        ⟨d, -, -, -, hchild⟩ | ⟨id, r, -, -, hchild⟩
      · cases hchild.symm.trans hstep
      · cases hchild.symm.trans hstep
    | returned r =>
      cases hstep
      exact ⟨answers, h.leave hc⟩

omit H in
theorem Rest.served (rest : Rest G S spec rep mid) (arg : Nat → C) (report : R → ρ) :
    Served G S arg report spec rep mid
      ((completions rest.shared.history).map Completed.exchange) rest.shared (fun _ => none) [] :=
  ⟨[], rest.inv, (List.append_nil _).symm, List.nodup_nil,
    fun _ h => absurd h List.not_mem_nil,
    fun p => ⟨rest.idle p, fun _ h => absurd h List.not_mem_nil⟩⟩

theorem run_served (rest : Rest G S spec rep mid) (arg : Nat → C) (report : R → ρ) (limit : Nat)
    (acts : List (FamilyAct Unit)) :
    let s := (Family.machine (callers G S arg report) limit rest.shared).run acts
    Served G S arg report spec rep mid
      ((completions rest.shared.history).map Completed.exchange) s.shared s.child s.out :=
  (keeps H G arg report _).run (rest.served arg report) acts

section Progress

/-- How far a call is from its return, `m` telling it for the locals of one inside. -/
def stageRank (S : Section D C L R) (m : L → Nat) (c : Client C L R) : Nat :=
  match c.stage with
  | .enter => (match S.enter c.call with | .inl l => m l | .inr _ => 0) + 4
  | .lock l => m l + 3
  | .inside l => m l + 2
  | .unlock _ => 1

def rank (S : Section D C L R) (arg : Nat → C) (m : L → Nat) (s : Shared σ D C L R Nat) (p : Nat) :
    Caller R → Nat
  | .call => stageRank S m ⟨0, arg p, .enter⟩ + 1
  | .inside => ((s.client p).map (stageRank S m)).getD 0
  | .returned _ => 0

omit H

variable {m : L → Nat}

theorem stageRank_pos (c : Client C L R) : 0 < stageRank S m c := by
  unfold stageRank
  split <;> omega

theorem rank_congr (h : s'.client p = s.client p) (c : Caller R) :
    rank S arg m s' p c = rank S arg m s p c := by
  cases c <;> simp only [rank, h]

/-- A call that does not find the lock taken gets nearer to its return. -/
theorem advance_lower (hm : ∀ a c d l d' l', mid a c d l → S.body d l = (d', .inl l') → m l' < m l)
    (h : Section.Inv G S spec rep mid s) {c : Client C L R} (hc : s.client p = some c)
    (hlock : ∀ l, c.stage = .lock l → s.lock = G.free) :
    ∀ c', (Section.advance G S s p c).client p = some c' → stageRank S m c' < stageRank S m c := by
  intro c' hc'
  cases hstage : c.stage with
  | enter =>
    cases hl : S.enter c.call with
    | inl l =>
      simp only [Section.advance, hstage, hl] at hc'
      obtain rfl : _ = c' := by simpa [Section.goto] using hc'
      simp [stageRank, hstage, hl]
    | inr r => simp [Section.advance, hstage, hl, Section.leave] at hc'
  | lock l =>
    simp only [Section.advance, hstage, hlock l hstage, G.acquire_free] at hc'
    obtain rfl : _ = c' := by simpa [Section.goto] using hc'
    simp [stageRank, hstage]
  | inside l =>
    have hprog := (h.owned.progress hc (by simp [Client.critical, hstage])).2.1
    rw [Section.Progress, hstage] at hprog
    rcases hb : S.body s.data l with ⟨data, l' | r⟩
    · simp only [Section.advance, hstage, hb] at hc'
      obtain rfl : _ = c' := by simpa [Section.goto] using hc'
      simpa [stageRank, hstage] using hm _ _ _ _ _ _ hprog hb
    · simp only [Section.advance, hstage, hb] at hc'
      obtain rfl : _ = c' := by simpa [Section.goto] using hc'
      simp [stageRank, hstage]
  | unlock r => simp [Section.advance, hstage, Section.leave] at hc'

/-- A process that does not wait for the lock gets nearer to its end. -/
theorem Going.nearer_of (h : Going G S arg report spec rep mid base s child out answers)
    (hm : ∀ a c d l d' l', mid a c d l → S.body d l = (d', .inl l') → m l' < m l)
    {c : Caller R} (hc : child p = some c)
    (hlock : ∀ d l, s.client p = some d → d.stage = .lock l → s.lock = G.free) :
    Family.Nearer (callers G S arg report) (rank S arg m) s child := by
  have hp := h.fits p
  rw [hc] at hp
  refine ⟨p, c, (), hc, ?_⟩
  cases c with
  | returned r => exact ⟨fun _ _ _ _ => Nat.le_refl _, by simp [callers]⟩
  | call =>
    have hclient : (Section.step G S s (.invoke p (arg p))).client =
        Function.update s.client p (some ⟨s.nextId, arg p, .enter⟩) := by
      simp only [Section.step, hp.1]
      rfl
    constructor
    · intro q d hq _
      refine Nat.le_of_eq (rank_congr ?_ d)
      simp only [callers, hclient, Function.update_of_ne hq]
    · intro c' hnext
      obtain rfl : Caller.inside = c' := by simpa [callers] using hnext
      simp [callers, rank, hclient, stageRank]
  | inside =>
    obtain ⟨⟨d, hd, hcall⟩, -⟩ := hp
    have hstep : Section.step G S s (.run p) = Section.advance G S s p d := by
      simp only [Section.step, hd]
    have hlower := advance_lower hm h.inv hd fun l => hlock d l hd
    rw [← hstep] at hlower
    have hrank : rank S arg m s p .inside = stageRank S m d := by simp [rank, hd]
    rcases inside_cases (G := G) (S := S) report ⟨d, hd, hcall⟩ () with
      ⟨e, -, hclient, -, hchild⟩ | ⟨id, r, hclient, -, hchild⟩
    · rw [hchild]
      have hself := hlower e (by rw [hclient, Function.update_self])
      constructor
      · intro q d hq _
        refine Nat.le_of_eq (rank_congr ?_ d)
        rw [hclient, Function.update_of_ne hq]
      · intro c' hnext
        obtain rfl := Sum.inl.inj hnext
        rw [hrank]
        simpa [rank, hclient] using hself
    · rw [hchild]
      constructor
      · intro q d hq _
        refine Nat.le_of_eq (rank_congr ?_ d)
        rw [hclient, Function.update_of_ne hq]
      · intro c' hnext
        obtain rfl := Sum.inl.inj hnext
        rw [hrank]
        exact stageRank_pos d

theorem Going.inside_of_client (h : Going G S arg report spec rep mid base s child out answers)
    {c : Client C L R} (hc : s.client p = some c) : child p = some .inside := by
  have hp := h.fits p
  cases hchild : child p with
  | none =>
    rw [hchild] at hp
    exact absurd (hc.symm.trans hp.1) (Option.some_ne_none c)
  | some c' =>
    rw [hchild] at hp
    cases c' with
    | call => exact absurd (hc.symm.trans hp.1) (Option.some_ne_none c)
    | inside => rfl
    | returned r => exact absurd (hc.symm.trans hp.1) (Option.some_ne_none c)

/-- The holder of the lock, or any process while it is free, gets nearer to its end. -/
theorem Going.nearer (h : Going G S arg report spec rep mid base s child out answers)
    (hm : ∀ a c d l d' l', mid a c d l → S.body d l = (d', .inl l') → m l' < m l)
    (halive : ∃ p, child p ≠ none) :
    Family.Nearer (callers G S arg report) (rank S arg m) s child := by
  rcases h.inv.owned with ⟨hfree, -⟩ | ⟨-, o, c, ho, hcrit, -⟩
  · obtain ⟨p, hp⟩ := halive
    obtain ⟨c, hc⟩ := Option.ne_none_iff_exists'.mp hp
    exact h.nearer_of hm hc fun _ _ _ _ => hfree
  · apply h.nearer_of hm (h.inside_of_client ho)
    intro d l hd hstage
    obtain rfl := Option.some.inj (ho.symm.trans hd)
    simp [Client.critical, hstage] at hcrit

include H

/-- The program gets to its end from wherever it is. -/
theorem can_return (hm : ∀ a c d l d' l', mid a c d l → S.body d l = (d', .inl l') → m l' < m l)
    (rest : Rest G S spec rep mid) (arg : Nat → C) (report : R → ρ) (limit : Nat)
    (acts : List (FamilyAct Unit)) :
    ∃ more, (∀ a ∈ more, a ≠ .parent true) ∧
      ((Family.machine (callers G S arg report) limit rest.shared).run (acts ++ more)).parent =
        .returned := by
  refine Family.can_return (keeps H G arg report _) (rank S arg m) ?_ (rest.served arg report) acts
  rintro s child out ⟨answers, h⟩ halive
  exact h.nearer hm halive

end Progress

/-- How the processes leave the code around the lock: they have made one call each, in some order,
and each has reported what it has been answered. -/
structure Ended (rest : Rest G S spec rep mid) (arg : Nat → C) (report : R → ρ)
    (s : Family (Shared σ D C L R Nat) (Caller R) ρ) (order : List (Nat × R)) : Prop where
  each : (order.map Prod.fst).Perm (List.range s.forked)
  reports : s.out.Perm (order.map fun a => (a.1, report a.2))
  atRest : ∃ after : Rest G S spec rep mid, after.shared = s.shared
  legal : spec.LegalFrom (Section.after spec rest.shared.history)
    (order.map fun a => (arg a.1, a.2))
  after : Section.after spec s.shared.history =
    spec.replay (Section.after spec rest.shared.history) (order.map fun a => (arg a.1, a.2))
  data : rep (Section.after spec s.shared.history) s.shared.data

theorem run_ended (rest : Rest G S spec rep mid) (arg : Nat → C) (report : R → ρ) {limit : Nat}
    {acts : List (FamilyAct Unit)}
    (hreturned : ((Family.machine (callers G S arg report) limit rest.shared).run acts).parent =
      .returned) :
    ∃ order, Ended rest arg report
      ((Family.machine (callers G S arg report) limit rest.shared).run acts) order := by
  obtain ⟨answers, h⟩ := run_served H rest arg report limit acts
  obtain ⟨hreported, -, hnone⟩ := (Family.run_tidy rest.shared acts).all_reported hreturned
  set s := (Family.machine (callers G S arg report) limit rest.shared).run acts
  have hfits (p : Nat) : s.shared.client p = none ∧ ∀ r, (p, r) ∈ answers → (p, report r) ∈ s.out := by
    have hp := h.fits p
    rw [hnone p] at hp
    exact hp
  have hidle (p : Nat) := (hfits p).1
  have hout : s.out.Nodup := (hreported.nodup_iff.mpr List.nodup_range).of_map Prod.fst
  have hanswers : (answers.map fun a => (a.1, report a.2)).Nodup := by
    apply List.Nodup.of_map Prod.fst
    rw [List.map_map]
    exact h.once
  have hreports : s.out.Perm (answers.map fun a => (a.1, report a.2)) := by
    apply (List.perm_ext_iff_of_nodup hout hanswers).mpr
    intro e
    rw [List.mem_map]
    constructor
    · intro he
      obtain ⟨r, ha, hr⟩ := h.told e he
      exact ⟨_, ha, Prod.ext rfl hr.symm⟩
    · rintro ⟨⟨p, r⟩, ha, rfl⟩
      exact (hfits p).2 r ha
  have heach : (answers.map Prod.fst).Perm (s.out.map Prod.fst) := by
    have hperm := (hreports.map Prod.fst).symm
    rwa [List.map_map] at hperm
  have hlegal := h.inv.legal
  rw [h.log, SeqSpec.Legal, SeqSpec.legalFrom_append] at hlegal
  refine ⟨answers, heach.trans hreported, hreports, ⟨⟨s.shared, h.inv, hidle⟩, rfl⟩, hlegal.2, ?_,
    h.inv.rep_of_free (h.inv.free_iff.mpr ?_)⟩
  · rw [Section.after, h.log, SeqSpec.replay_append]
    rfl
  · intro p c hc
    exact absurd (hc.symm.trans (hidle p)) (Option.some_ne_none c)

end Callers

end KernelDrivers.Framework
