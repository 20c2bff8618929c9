import KernelDrivers.Framework.Linearizability
import KernelDrivers.Framework.Machine

namespace KernelDrivers.Framework

/-- A lock with one holder at a time: there is no result of `acquire` while it is held. -/
structure Guard (σ : Type*) where
  free : σ
  held : σ
  acquire : σ → Option σ
  release : σ → σ
  acquire_free : acquire free = some held
  acquire_held : acquire held = none
  release_held : release held = free

def Guard.testAndSet (flag : Bool) : Option Bool := if flag then none else some true

def Guard.clear (_ : Bool) : Bool := false

/-- A lock that is a flag, set while somebody holds it. -/
def Guard.flag : Guard Bool where
  free := false
  held := true
  acquire := testAndSet
  release := clear
  acquire_free := rfl
  acquire_held := rfl
  release_held := rfl

/-- Code around a lock: a call either answers before it takes the lock, or enters with the
locals it then runs on, one step at a time, until it answers. -/
structure Section (D C L R : Type*) where
  init : D
  enter : C → L ⊕ R
  body : D → L → D × (L ⊕ R)

/-- Where a call is: not begun, in front of the lock, behind it, or about to release it. -/
inductive Stage (L R : Type*) where
  | enter
  | lock (l : L)
  | inside (l : L)
  | unlock (r : R)

/-- A call in progress. -/
structure Client (C L R : Type*) where
  id : Nat
  call : C
  stage : Stage L R

/-- The call holds the lock. -/
def Client.critical {C L R : Type*} (c : Client C L R) : Bool :=
  match c.stage with
  | .enter | .lock _ => false
  | .inside _ | .unlock _ => true

structure Shared (σ D C L R P : Type*) where
  data : D
  lock : σ
  client : P → Option (Client C L R)
  history : List (HistoryEvent C C R)
  nextId : Nat

namespace Section

inductive Act (C P : Type*) where
  | invoke (p : P) (call : C)
  | run (p : P)

variable {σ D C L R P : Type*} [DecidableEq P]

def goto (s : Shared σ D C L R P) (p : P) (c : Client C L R) : Shared σ D C L R P :=
  { s with client := Function.update s.client p (some c) }

/-- The call returns. -/
def leave (s : Shared σ D C L R P) (p : P) (c : Client C L R) (r : R) : Shared σ D C L R P :=
  { s with
    client := Function.update s.client p none
    history := s.history ++ [.respond c.id c.call r] }

variable (G : Guard σ) (S : Section D C L R)

/-- The next step of the call `c` of process `p`. -/
def advance (s : Shared σ D C L R P) (p : P) (c : Client C L R) : Shared σ D C L R P :=
  match c.stage with
  | .enter =>
    match S.enter c.call with
    | .inl l => goto s p { c with stage := .lock l }
    | .inr r => leave s p c r
  | .lock l =>
    match G.acquire s.lock with
    | none => s
    | some lock => goto { s with lock } p { c with stage := .inside l }
  | .inside l =>
    match S.body s.data l with
    | (data, .inl l) => goto { s with data } p { c with stage := .inside l }
    | (data, .inr r) => goto { s with data } p { c with stage := .unlock r }
  | .unlock r => leave { s with lock := G.release s.lock } p c r

def step (s : Shared σ D C L R P) : Act C P → Shared σ D C L R P
  | .invoke p call =>
    match s.client p with
    | some _ => s
    | none =>
      goto { s with history := s.history ++ [.invoke s.nextId call], nextId := s.nextId + 1 }
        p ⟨s.nextId, call, .enter⟩
  | .run p =>
    match s.client p with
    | none => s
    | some c => advance G S s p c

def machine (P : Type*) [DecidableEq P] : Machine (Shared σ D C L R P) (Act C P) :=
  ⟨⟨S.init, G.free, fun _ => none, [], 0⟩, step G S⟩

variable {A : Type*}

/-- The steps of a call simulate one step of a sequential object: `rep` relates what the object
is to what the data are while nobody is inside, and `mid` says how far a call inside has come. -/
structure Simulates (S : Section D C L R) (spec : SeqSpec A C R) (rep : A → D → Prop)
    (mid : A → C → D → L → Prop) : Prop where
  init : rep spec.init S.init
  early : ∀ a c r, S.enter c = .inr r → spec.step a c = (a, r)
  start : ∀ a c d l, S.enter c = .inl l → rep a d → mid a c d l
  next : ∀ a c d l d' l', mid a c d l → S.body d l = (d', .inl l') → mid a c d' l'
  done : ∀ a c d l d' r, mid a c d l → S.body d l = (d', .inr r) →
    (spec.step a c).2 = r ∧ rep (spec.step a c).1 d'

/-- What the object is after the completed calls of a history. -/
def after (spec : SeqSpec A C R) (h : List (HistoryEvent C C R)) : A :=
  spec.replay spec.init ((completions h).map Completed.exchange)

/-- How far the holder of the lock has come, `a` being what the object is. -/
def Progress (spec : SeqSpec A C R) (rep : A → D → Prop) (mid : A → C → D → L → Prop) (a : A)
    (d : D) (c : Client C L R) : Prop :=
  match c.stage with
  | .enter | .lock _ => False
  | .inside l => mid a c.call d l
  | .unlock r => (spec.step a c.call).2 = r ∧ rep (spec.step a c.call).1 d

/-- Either the lock is free and nobody is inside, or one process holds it. -/
def Owned (spec : SeqSpec A C R) (rep : A → D → Prop) (mid : A → C → D → L → Prop)
    (s : Shared σ D C L R P) : Prop :=
  (s.lock = G.free ∧ rep (after spec s.history) s.data ∧
    ∀ p c, s.client p = some c → c.critical = false) ∨
  (s.lock = G.held ∧ ∃ p c, s.client p = some c ∧ c.critical = true ∧
    Progress spec rep mid (after spec s.history) s.data c ∧
    ∀ p' c', s.client p' = some c' → c'.critical = true → p' = p)

/-- A call stands in the history, and in front of the lock it has entered with its locals. -/
structure Asked (s : Shared σ D C L R P) (c : Client C L R) : Prop where
  invoked : .invoke c.id c.call ∈ s.history
  entered : ∀ l, c.stage = .lock l → S.enter c.call = .inl l

structure Inv (spec : SeqSpec A C R) (rep : A → D → Prop) (mid : A → C → D → L → Prop)
    (s : Shared σ D C L R P) : Prop where
  wellFormed : WellFormed id s.history
  fresh : ∀ id ∈ invocations s.history, id < s.nextId
  legal : spec.Legal ((completions s.history).map Completed.exchange)
  asked : ∀ p c, s.client p = some c → Asked S s c
  owned : Owned G spec rep mid s

variable {G S} {spec : SeqSpec A C R} {rep : A → D → Prop} {mid : A → C → D → L → Prop}

omit [DecidableEq P] in
theorem Asked.mono {s s' : Shared σ D C L R P} {c : Client C L R} (h : Asked S s c)
    (hsub : ∀ e ∈ s.history, e ∈ s'.history) : Asked S s' c :=
  ⟨hsub _ h.invoked, h.entered⟩

theorem after_invoke (h : List (HistoryEvent C C R)) (id : Nat) (call : C) :
    after spec (h ++ [.invoke id call]) = after spec h := by
  rw [after, completions_invoke, after]

theorem after_respond (h : List (HistoryEvent C C R)) (id : Nat) (call : C) (r : R) :
    after spec (h ++ [.respond id call r]) = (spec.step (after spec h) call).1 := by
  simp [after, Completed.exchange]

/-- A step of a process outside its critical section leaves the ownership as it is. -/
theorem Owned.of_calm {s s' : Shared σ D C L R P} (h : Owned G spec rep mid s) {p : P}
    {v : Option (Client C L R)} (hcalm : ∀ c, s.client p = some c → c.critical = false)
    (hv : ∀ c, v = some c → c.critical = false)
    (hclient : s'.client = Function.update s.client p v) (hlock : s'.lock = s.lock)
    (hdata : s'.data = s.data) (hafter : after spec s'.history = after spec s.history) :
    Owned G spec rep mid s' := by
  cases h with
  | inl hfree =>
    obtain ⟨hl, hrep, hnone⟩ := hfree
    refine Or.inl ⟨hlock.trans hl, ?_, ?_⟩
    · rw [hdata, hafter]
      exact hrep
    · intro q c hq
      rw [hclient] at hq
      cases update_eq_some hq with
      | inl hself => exact hv c hself.2
      | inr hother => exact hnone q c hother.2
  | inr hheld =>
    obtain ⟨hl, o, c, ho, hcrit, hprog, hone⟩ := hheld
    have hne : o ≠ p := by
      rintro rfl
      rw [hcalm c ho] at hcrit
      cases hcrit
    refine Or.inr ⟨hlock.trans hl, o, c, ?_, hcrit, ?_, ?_⟩
    · rw [hclient, Function.update_of_ne hne]
      exact ho
    · rw [hdata, hafter]
      exact hprog
    · intro q c' hq hcrit'
      rw [hclient] at hq
      cases update_eq_some hq with
      | inl hself =>
        rw [hv c' hself.2] at hcrit'
        cases hcrit'
      | inr hother => exact hone q c' hother.2 hcrit'

omit [DecidableEq P] in
/-- The process inside is the one that holds the lock. -/
theorem Owned.progress {s : Shared σ D C L R P} (h : Owned G spec rep mid s) {p : P}
    {c : Client C L R} (hs : s.client p = some c) (hc : c.critical = true) :
    s.lock = G.held ∧ Progress spec rep mid (after spec s.history) s.data c ∧
      ∀ q c', s.client q = some c' → c'.critical = true → q = p := by
  cases h with
  | inl hfree =>
    rw [hfree.2.2 p c hs] at hc
    cases hc
  | inr hheld =>
    obtain ⟨hl, o, c', ho, -, hprog, hone⟩ := hheld
    obtain rfl := hone p c hs hc
    obtain rfl := Option.some.inj (ho.symm.trans hs)
    exact ⟨hl, hprog, hone⟩

/-- The holder of the lock moves on. -/
theorem Owned.goto {s : Shared σ D C L R P} {p : P} {c : Client C L R} {data : D}
    (hone : ∀ q c', s.client q = some c' → c'.critical = true → q = p) (hc : c.critical = true)
    (hprog : Progress spec rep mid (after spec s.history) data c) :
    Owned G spec rep mid (Section.goto { s with data, lock := G.held } p c) := by
  refine Or.inr ⟨rfl, p, c, Function.update_self .., hc, hprog, ?_⟩
  intro q c' hq hcrit
  cases update_eq_some hq with
  | inl hself => exact hself.1
  | inr hother => exact hone q c' hother.2 hcrit

theorem goto_inv {s : Shared σ D C L R P} (h : Inv G S spec rep mid s) {p : P}
    {c : Client C L R} (data : D) (lock : σ) (hasked : Asked S s c)
    (howned : Owned G spec rep mid (goto { s with data, lock } p c)) :
    Inv G S spec rep mid (goto { s with data, lock } p c) := by
  refine ⟨h.wellFormed, h.fresh, h.legal, ?_, howned⟩
  intro q c' hq
  cases update_eq_some hq with
  | inl hself =>
    obtain rfl := Option.some.inj hself.2
    exact hasked.mono fun _ he => he
  | inr hother => exact (h.asked q c' hother.2).mono fun _ he => he

/-- A call returns what the object answers. -/
theorem leave_inv {s : Shared σ D C L R P} (h : Inv G S spec rep mid s) {p : P}
    {c : Client C L R} {r : R} (lock : σ) (hinvoked : .invoke c.id c.call ∈ s.history)
    (hanswer : (spec.step (after spec s.history) c.call).2 = r)
    (howned : Owned G spec rep mid (leave { s with lock } p c r)) :
    Inv G S spec rep mid (leave { s with lock } p c r) := by
  refine ⟨h.wellFormed.respond hinvoked _, ?_, ?_, ?_, howned⟩
  · simpa only [leave, invocations_respond] using h.fresh
  · simp only [leave, completions_respond, List.map_append, List.map_cons, List.map_nil]
    exact (spec.legal_concat _ _).mpr ⟨h.legal, hanswer⟩
  · intro q c' hq
    cases update_eq_some hq with
    | inl hself => cases hself.2
    | inr hother =>
      exact (h.asked q c' hother.2).mono fun e he => List.mem_append_left _ he

theorem invoke_inv {s : Shared σ D C L R P} (h : Inv G S spec rep mid s) (p : P) (call : C) :
    Inv G S spec rep mid (step G S s (.invoke p call)) := by
  cases hs : s.client p with
  | some c =>
    simp only [step, hs]
    exact h
  | none =>
    simp only [step, hs]
    have hid : s.nextId ∉ invocations s.history :=
      fun hmem => absurd (h.fresh _ hmem) (Nat.lt_irrefl _)
    refine ⟨h.wellFormed.invoke hid call, ?_, ?_, ?_, ?_⟩
    · intro id hmem
      simp only [goto, invocations_invoke, List.mem_append, List.mem_singleton] at hmem
      cases hmem with
      | inl hold => exact Nat.lt_succ_of_lt (h.fresh id hold)
      | inr hnew => exact hnew ▸ Nat.lt_succ_self _
    · simpa only [goto, completions_invoke] using h.legal
    · intro q c hq
      cases update_eq_some hq with
      | inl hself =>
        obtain rfl := Option.some.inj hself.2
        exact ⟨by simp [goto], fun _ hl => by cases hl⟩
      | inr hother =>
        exact (h.asked q c hother.2).mono fun e he => List.mem_append_left _ he
    · refine h.owned.of_calm (p := p) (v := some ⟨s.nextId, call, .enter⟩) ?_ ?_ rfl rfl rfl ?_
      · intro c hc
        rw [hs] at hc
        cases hc
      · intro c hc
        obtain rfl := Option.some.inj hc
        rfl
      · exact after_invoke _ _ _

variable (H : Simulates S spec rep mid)
include H

theorem enter_inv {s : Shared σ D C L R P} (h : Inv G S spec rep mid s) {p : P}
    {c : Client C L R} (hs : s.client p = some c) (hstage : c.stage = .enter) :
    Inv G S spec rep mid (advance G S s p c) := by
  have hinvoked := (h.asked p c hs).invoked
  have hcalm (c' : Client C L R) (hc' : s.client p = some c') : c'.critical = false := by
    obtain rfl := Option.some.inj (hs.symm.trans hc')
    simp [Client.critical, hstage]
  cases hl : S.enter c.call with
  | inl l =>
    simp only [advance, hstage, hl]
    apply goto_inv h s.data s.lock
    · exact ⟨hinvoked, fun l' hl' => by cases hl'; exact hl⟩
    · refine h.owned.of_calm (p := p) hcalm ?_ rfl rfl rfl rfl
      intro c' hc'
      obtain rfl := Option.some.inj hc'
      rfl
  | inr r =>
    simp only [advance, hstage, hl]
    have hstep : spec.step (after spec s.history) c.call = (after spec s.history, r) :=
      H.early _ _ _ hl
    apply leave_inv h s.lock hinvoked (congrArg Prod.snd hstep)
    refine h.owned.of_calm (p := p) (v := none) hcalm ?_ rfl rfl rfl ?_
    · intro c' hc'
      cases hc'
    · rw [leave, after_respond, hstep]

theorem lock_inv {s : Shared σ D C L R P} (h : Inv G S spec rep mid s) {p : P}
    {c : Client C L R} {l : L} (hs : s.client p = some c) (hstage : c.stage = .lock l) :
    Inv G S spec rep mid (advance G S s p c) := by
  have hasked := h.asked p c hs
  simp only [advance, hstage]
  cases h.owned with
  | inr hheld =>
    rw [hheld.1, G.acquire_held]
    exact h
  | inl hfree =>
    obtain ⟨hlock, hrep, hnone⟩ := hfree
    rw [hlock, G.acquire_free]
    apply goto_inv h s.data G.held
    · exact ⟨hasked.invoked, fun l' hl' => by cases hl'⟩
    · refine Owned.goto ?_ rfl (H.start _ _ _ _ (hasked.entered l hstage) hrep)
      intro q c' hq hcrit
      rw [hnone q c' hq] at hcrit
      cases hcrit

theorem inside_inv {s : Shared σ D C L R P} (h : Inv G S spec rep mid s) {p : P}
    {c : Client C L R} {l : L} (hs : s.client p = some c) (hstage : c.stage = .inside l) :
    Inv G S spec rep mid (advance G S s p c) := by
  have hcrit : c.critical = true := by simp [Client.critical, hstage]
  obtain ⟨hlock, hprog, hone⟩ := h.owned.progress hs hcrit
  rw [Progress, hstage] at hprog
  have hgoto {data : D} {c' : Client C L R} (hasked : Asked S s c') (hc' : c'.critical = true)
      (hprog' : Progress spec rep mid (after spec s.history) data c') :
      Inv G S spec rep mid (goto { s with data } p c') := by
    have howned : Owned G spec rep mid (goto { s with data, lock := G.held } p c') :=
      Owned.goto hone hc' hprog'
    rw [← hlock] at howned
    exact goto_inv h data s.lock hasked howned
  have hinvoked := (h.asked p c hs).invoked
  simp only [advance, hstage]
  rcases hb : S.body s.data l with ⟨data, l' | r⟩
  · exact hgoto ⟨hinvoked, fun _ hl => by cases hl⟩ rfl (H.next _ _ _ _ _ _ hprog hb)
  · exact hgoto ⟨hinvoked, fun _ hl => by cases hl⟩ rfl (H.done _ _ _ _ _ _ hprog hb)

omit H in
theorem unlock_inv {s : Shared σ D C L R P} (h : Inv G S spec rep mid s) {p : P}
    {c : Client C L R} {r : R} (hs : s.client p = some c) (hstage : c.stage = .unlock r) :
    Inv G S spec rep mid (advance G S s p c) := by
  have hcrit : c.critical = true := by simp [Client.critical, hstage]
  obtain ⟨hlock, hprog, hone⟩ := h.owned.progress hs hcrit
  rw [Progress, hstage] at hprog
  simp only [advance, hstage]
  apply leave_inv h _ (h.asked p c hs).invoked hprog.1
  refine Or.inl ⟨?_, ?_, ?_⟩
  · simp only [leave, hlock, G.release_held]
  · rw [leave, after_respond]
    exact hprog.2
  · intro q c' hq
    cases update_eq_some hq with
    | inl hself => cases hself.2
    | inr hother =>
      by_contra hcrit'
      exact hother.1 (hone q c' hother.2 (by simpa using hcrit'))

theorem step_inv {s : Shared σ D C L R P} (h : Inv G S spec rep mid s) (a : Act C P) :
    Inv G S spec rep mid (step G S s a) := by
  cases a with
  | invoke p call => exact invoke_inv h p call
  | run p =>
    cases hs : s.client p with
    | none =>
      simp only [step, hs]
      exact h
    | some c =>
      simp only [step, hs]
      cases hstage : c.stage with
      | enter => exact enter_inv H h hs hstage
      | lock l => exact lock_inv H h hs hstage
      | inside l => exact inside_inv H h hs hstage
      | unlock r => exact unlock_inv h hs hstage

theorem run_inv (G : Guard σ) (acts : List (Act C P)) :
    Inv G S spec rep mid ((machine G S P).run acts) := by
  apply (machine G S P).run_invariant
  · exact ⟨.nil, fun _ h => absurd h List.not_mem_nil, trivial, nofun,
      Or.inl ⟨rfl, H.init, nofun⟩⟩
  · exact fun _ a h => step_inv H h a

omit H

omit [DecidableEq P] in
theorem Inv.linearizable {s : Shared σ D C L R P} (h : Inv G S spec rep mid s) :
    Linearizable spec s.history := h.wellFormed.linearizable h.legal

omit [DecidableEq P] in
/-- While nobody holds the lock the data are what the completed calls make of them. -/
theorem Inv.rep_of_free {s : Shared σ D C L R P} (h : Inv G S spec rep mid s)
    (hfree : s.lock = G.free) : rep (after spec s.history) s.data := by
  cases h.owned with
  | inl hfree => exact hfree.2.1
  | inr hheld =>
    have hsome := G.acquire_free
    rw [← hfree, hheld.1, G.acquire_held] at hsome
    cases hsome

omit [DecidableEq P] in
theorem Inv.exclusive {s : Shared σ D C L R P} (h : Inv G S spec rep mid s) {p q : P}
    {c c' : Client C L R} (hp : s.client p = some c) (hq : s.client q = some c')
    (hc : c.critical = true) (hc' : c'.critical = true) : p = q :=
  ((h.owned.progress hp hc).2.2 q c' hq hc').symm

omit [DecidableEq P] in
theorem Inv.free_iff {s : Shared σ D C L R P} (h : Inv G S spec rep mid s) :
    s.lock = G.free ↔ ∀ p c, s.client p = some c → c.critical = false := by
  constructor
  · intro hfree p c hp
    by_contra hcrit
    rw [Bool.not_eq_false] at hcrit
    have hsome := G.acquire_free
    rw [← hfree, (h.owned.progress hp hcrit).1, G.acquire_held] at hsome
    cases hsome
  · intro hnone
    cases h.owned with
    | inl hfree => exact hfree.1
    | inr hheld =>
      obtain ⟨-, p, c, hp, hcrit, -⟩ := hheld
      rw [hnone p c hp] at hcrit
      cases hcrit

theorem advance_client_of_ne (s : Shared σ D C L R P) {p q : P} (c : Client C L R) (hq : q ≠ p) :
    (advance G S s p c).client q = s.client q := by
  unfold advance
  split
  · split <;> simp [goto, leave, hq]
  · split
    · rfl
    · simp [goto, hq]
  · split <;> simp [goto, hq]
  · simp [leave, hq]

/-- A step of a call leaves it under way, or lets it return. -/
theorem advance_cases {s : Shared σ D C L R P} {p : P} {c : Client C L R}
    (hs : s.client p = some c) :
    (∃ c', c'.call = c.call ∧ (advance G S s p c).client = Function.update s.client p (some c') ∧
      (advance G S s p c).history = s.history) ∨
    ∃ r, (advance G S s p c).client = Function.update s.client p none ∧
      (advance G S s p c).history = s.history ++ [.respond c.id c.call r] := by
  have hself : s.client = Function.update s.client p (some c) := by
    rw [← hs, Function.update_eq_self]
  cases hstage : c.stage with
  | enter =>
    simp only [advance, hstage]
    split
    · exact Or.inl ⟨{ c with stage := .lock _ }, rfl, rfl, rfl⟩
    · exact Or.inr ⟨_, rfl, rfl⟩
  | lock l =>
    simp only [advance, hstage]
    split
    · exact Or.inl ⟨c, rfl, hself, rfl⟩
    · exact Or.inl ⟨{ c with stage := .inside l }, rfl, rfl, rfl⟩
  | inside l =>
    simp only [advance, hstage]
    split
    · exact Or.inl ⟨{ c with stage := .inside _ }, rfl, rfl, rfl⟩
    · exact Or.inl ⟨{ c with stage := .unlock _ }, rfl, rfl, rfl⟩
  | unlock r => exact Or.inr ⟨r, by simp only [advance, hstage, leave, and_self]⟩

theorem runs_client_of_ne (s : Shared σ D C L R P) (p : P) {q : P} (hq : q ≠ p) (k : Nat) :
    ((machine G S P).runFrom s (List.replicate k (.run p))).client q = s.client q := by
  induction k generalizing s with
  | zero => rfl
  | succ k ih =>
    rw [List.replicate_succ, Machine.runFrom_cons, ih]
    change (step G S s (.run p)).client q = s.client q
    cases hp : s.client p with
    | none => simp only [step, hp]
    | some c =>
      simp only [step, hp]
      exact advance_client_of_ne s c hq

include H

theorem runs_inv {s : Shared σ D C L R P} (h : Inv G S spec rep mid s) (acts : List (Act C P)) :
    Inv G S spec rep mid ((machine G S P).runFrom s acts) := by
  induction acts generalizing s with
  | nil => exact h
  | cons a acts ih => exact ih (step_inv H h a)

variable (m : L → Nat)
  (hm : ∀ a c d l d' l', mid a c d l → S.body d l = (d', .inl l') → m l' < m l)
include hm

/-- A process inside its critical section leaves it. -/
theorem finish_inside {s : Shared σ D C L R P} (h : Inv G S spec rep mid s) {p : P}
    {c : Client C L R} (hs : s.client p = some c) (hc : c.critical = true) :
    ∃ k, ((machine G S P).runFrom s (List.replicate k (.run p))).client p = none := by
  have hunlock {s : Shared σ D C L R P} {c : Client C L R} {r : R} (hs : s.client p = some c)
      (hstage : c.stage = .unlock r) : (step G S s (.run p)).client p = none := by
    simp [step, hs, advance, hstage, leave]
  cases hstage : c.stage with
  | enter => simp [Client.critical, hstage] at hc
  | lock l => simp [Client.critical, hstage] at hc
  | unlock r => exact ⟨1, hunlock hs hstage⟩
  | inside l =>
    -- the measure of the locals bounds the steps that are left
    induction hn : m l using Nat.strongRecOn generalizing s c l with
    | _ n ih =>
      have hprog := (h.owned.progress hs hc).2.1
      rw [Progress, hstage] at hprog
      have hstep := step_inv H h (.run p)
      rcases hb : S.body s.data l with ⟨data, l' | r⟩
      · have hnext : (step G S s (.run p)).client p = some { c with stage := .inside l' } := by
          simp [step, hs, advance, hstage, hb, goto]
        obtain ⟨k, hk⟩ := ih (m l') (hn ▸ hm _ _ _ _ _ _ hprog hb) hstep hnext rfl l' rfl rfl
        exact ⟨k + 1, hk⟩
      · have hnext : (step G S s (.run p)).client p = some { c with stage := .unlock r } := by
          simp [step, hs, advance, hstage, hb, goto]
        exact ⟨2, hunlock hnext rfl⟩

theorem finish_locked {s : Shared σ D C L R P} (h : Inv G S spec rep mid s) {p : P}
    {c : Client C L R} {l : L} (hs : s.client p = some c) (hstage : c.stage = .lock l) :
    ∃ more : List P, ((machine G S P).runFrom s (more.map .run)).client p = none := by
  have hfree {s : Shared σ D C L R P} (h : Inv G S spec rep mid s) (hs : s.client p = some c)
      (hlock : s.lock = G.free) :
      ∃ k, ((machine G S P).runFrom s (List.replicate k (.run p))).client p = none := by
    have hnext : (step G S s (.run p)).client p = some { c with stage := .inside l } := by
      simp [step, hs, advance, hstage, hlock, G.acquire_free, goto]
    obtain ⟨k, hk⟩ := finish_inside H m hm (step_inv H h (.run p)) hnext rfl
    exact ⟨k + 1, hk⟩
  cases h.owned with
  | inl howned =>
    obtain ⟨k, hk⟩ := hfree h hs howned.1
    exact ⟨List.replicate k p, by rwa [List.map_replicate]⟩
  | inr howned =>
    -- the holder finishes first
    obtain ⟨-, o, c', ho, hcrit, -, hone⟩ := howned
    have hne : p ≠ o := by
      rintro rfl
      obtain rfl := Option.some.inj (hs.symm.trans ho)
      simp [Client.critical, hstage] at hcrit
    obtain ⟨k, hk⟩ := finish_inside H m hm h ho hcrit
    have hs' := (runs_client_of_ne (G := G) (S := S) s o hne k).trans hs
    have h' := runs_inv H h (List.replicate k (.run o))
    have hlock := h'.free_iff.mpr fun q d hq => by
      by_contra hd
      rw [Bool.not_eq_false] at hd
      by_cases hqo : q = o
      · subst hqo
        rw [hk] at hq
        cases hq
      · rw [runs_client_of_ne s o hqo k] at hq
        exact hqo (hone q d hq hd)
    obtain ⟨j, hj⟩ := hfree h' hs' hlock
    refine ⟨List.replicate k o ++ List.replicate j p, ?_⟩
    rw [List.map_append, List.map_replicate, List.map_replicate, Machine.runFrom_append]
    exact hj

/-- From every state of a run each call in progress can still return. -/
theorem can_finish {s : Shared σ D C L R P} (h : Inv G S spec rep mid s) (p : P) :
    ∃ more : List P, ((machine G S P).runFrom s (more.map .run)).client p = none := by
  cases hs : s.client p with
  | none => exact ⟨[], hs⟩
  | some c =>
    cases hstage : c.stage with
    | lock l => exact finish_locked H m hm h hs hstage
    | inside l =>
      obtain ⟨k, hk⟩ := finish_inside H m hm h hs (by simp [Client.critical, hstage])
      exact ⟨List.replicate k p, by rwa [List.map_replicate]⟩
    | unlock r =>
      obtain ⟨k, hk⟩ := finish_inside H m hm h hs (by simp [Client.critical, hstage])
      exact ⟨List.replicate k p, by rwa [List.map_replicate]⟩
    | enter =>
      have hstep := step_inv H h (.run p)
      cases hl : S.enter c.call with
      | inr r =>
        refine ⟨[p], ?_⟩
        simp [Machine.runFrom, machine, step, hs, advance, hstage, hl, leave]
      | inl l =>
        have hnext : (step G S s (.run p)).client p = some { c with stage := .lock l } := by
          simp [step, hs, advance, hstage, hl, goto]
        obtain ⟨more, hmore⟩ := finish_locked H m hm hstep hnext rfl
        exact ⟨p :: more, hmore⟩

end Section

end KernelDrivers.Framework
