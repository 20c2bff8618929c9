import KernelDrivers.Framework.Counting
import KernelDrivers.Framework.Machine

namespace KernelDrivers.Framework

/-- A statement that uses a resource or gives it back. -/
inductive Teardown (R : Type*) where
  | use (r : R)
  | release (r : R)
  deriving DecidableEq

/-- A statement carried out on what is held, and whether it was in order. -/
def Teardown.exec {R : Type*} [DecidableEq R] (held : List R) : Teardown R → List R × Bool
  | .use r => (held, decide (r ∈ held))
  | .release r => (held.erase r, decide (r ∈ held))

/-- A statement of a probe: an acquisition, with what follows when it fails, or a use. -/
inductive Setup (R : Type*) where
  | acquire (r : R) (error : List (Teardown R))
  | use (r : R)
  deriving DecidableEq

/-- A driver in a module of its own: whether its open files hold the module, the resource through
which users get at it, its probe, what the calls of the users use, and its remove. -/
structure Removable (R : Type*) where
  owner : Bool
  node : R
  probe : List (Setup R)
  calls : List (List R)
  remove : List (Teardown R)

namespace Removable

inductive File (R : Type*) where
  | closed
  | opened
  | running (rest : List R)

def File.isOpen {R : Type*} : File R → Bool
  | .closed => false
  | _ => true

/-- What is left to do of the probe, of its error path or of the remove. -/
inductive Work (R : Type*) where
  | idle
  | probing (rest : List (Setup R))
  | unwinding (rest : List (Teardown R))
  | removing (rest : List (Teardown R))

/-- `refs` counts what holds the module; `stray` tells whether the driver, and `harmed` whether a
user, has used what is not there. -/
structure State (P R : Type*) where
  loaded : Bool
  going : Bool
  bound : Bool
  work : Work R
  held : List R
  files : P → File R
  refs : Nat
  stray : Bool
  harmed : Bool

def start {P R : Type*} : State P R :=
  ⟨false, false, false, .idle, [], fun _ => .closed, 0, false, false⟩

inductive Act (P R : Type*) where
  | insmod
  | offer
  | work (granted : Bool)
  | unbind
  | rmmod
  | unload
  | openFile (p : P)
  | call (p : P) (body : List R)
  | run (p : P)
  | closeFile (p : P)

variable {P R : Type*} [DecidableEq R]

/-- The next statement of the driver; `granted` tells whether an acquisition succeeds. -/
def workStep (s : State P R) (granted : Bool) : State P R :=
  match s.work with
  | .idle => s
  | .probing [] => { s with work := .idle, bound := true }
  | .probing (.acquire r error :: rest) =>
    if granted then { s with held := s.held ++ [r], work := .probing rest }
    else { s with work := .unwinding error }
  | .probing (.use r :: rest) =>
    { s with work := .probing rest, stray := s.stray || decide (r ∉ s.held) }
  | .unwinding [] => { s with work := .idle }
  | .unwinding (c :: rest) =>
    { s with work := .unwinding rest, held := (c.exec s.held).1,
             stray := s.stray || !(c.exec s.held).2 }
  | .removing [] => { s with work := .idle, bound := false }
  | .removing (c :: rest) =>
    { s with work := .removing rest, held := (c.exec s.held).1,
             stray := s.stray || !(c.exec s.held).2 }

/-- The module and its device, which the driver core may offer to the driver. With `unbinds` it may
also take it away again; the module goes only when nothing holds it. -/
def coreStep (D : Removable R) (unbinds : Bool) (s : State P R) (a : Act P R) : State P R :=
  match a, s.work with
  | .insmod, .idle =>
    if s.loaded then s else { s with loaded := true }
  | .offer, .idle =>
    if s.loaded && !s.going && !s.bound then { s with work := .probing D.probe } else s
  | .unbind, .idle =>
    if unbinds && s.bound then { s with work := .removing D.remove } else s
  | .rmmod, .idle =>
    if s.loaded && !s.going && s.refs == 0 then
      { s with going := true, work := if s.bound then .removing D.remove else .idle }
    else s
  | .unload, .idle =>
    if s.going && !s.bound then { s with loaded := false, going := false } else s
  | _, _ => s

/-- What some statements leave of what is held; there is nothing when one of them is not in
order. -/
def after : List R → List (Teardown R) → Option (List R)
  | held, [] => some held
  | held, c :: rest => if (c.exec held).2 then after (c.exec held).1 rest else none

/-- What a probe that succeeds holds in the end, when its error paths give everything back. -/
def probes : List R → List (Setup R) → Option (List R)
  | held, [] => some held
  | held, .acquire r error :: rest =>
    if after held error = some [] then probes (held ++ [r]) rest else none
  | held, .use r :: rest => if r ∈ held then probes held rest else none

/-- The node is acquired last. -/
def Late (node : R) : List (Setup R) → Prop
  | [] => True
  | .acquire r _ :: rest => (r = node → rest = []) ∧ Late node rest
  | .use _ :: rest => Late node rest

instance decidableLate (node : R) : ∀ setup, Decidable (Late node setup)
  | [] => .isTrue trivial
  | .acquire r _ :: rest =>
    have := decidableLate node rest
    inferInstanceAs (Decidable ((r = node → rest = []) ∧ Late node rest))
  | .use _ :: rest => decidableLate node rest

/-- The code of a driver that gives back what it holds, and whose users use what it holds. -/
structure Orderly (D : Removable R) (all : List R) : Prop where
  probe : probes [] D.probe = some all
  late : Late D.node D.probe
  remove : after all D.remove = some []
  calls : ∀ body ∈ D.calls, ∀ r ∈ body, r ∈ all

/-- How far the driver is: what it has left to do is in order with what it holds, and the node is
there only when everything is. -/
inductive Stage (D : Removable R) (unbinds : Bool) (all : List R) :
    Bool → Bool → Bool → Work R → List R → Prop where
  | out : Stage D unbinds all false false false .idle []
  | unbound (going : Bool) : Stage D unbinds all true going false .idle []
  | probing {rest : List (Setup R)} {held : List R} (left : probes held rest = some all)
      (late : Late D.node rest) (published : D.node ∈ held → rest = []) :
      Stage D unbinds all true false false (.probing rest) held
  | unwinding {rest : List (Teardown R)} {held : List R} (left : after held rest = some [])
      (hidden : D.node ∉ held) : Stage D unbinds all true false false (.unwinding rest) held
  | bound : Stage D unbinds all true false true .idle all
  | removing {rest : List (Teardown R)} {held : List R} {going : Bool}
      (left : after held rest = some []) (cause : unbinds = false → going = true) :
      Stage D unbinds all true going true (.removing rest) held

/-- The stage of a state, whose driver has used nothing that was not there. -/
structure Sound (D : Removable R) (unbinds : Bool) (all : List R) (s : State P R) : Prop where
  stage : Stage D unbinds all s.loaded s.going s.bound s.work s.held
  stray : s.stray = false

variable {D : Removable R} {unbinds : Bool} {all : List R} {s : State P R}

theorem exec_of_after {held left : List R} {c : Teardown R} {rest : List (Teardown R)}
    (h : after held (c :: rest) = some left) :
    (c.exec held).2 = true ∧ after (c.exec held).1 rest = some left := by
  rw [after] at h
  cases hok : (c.exec held).2 with
  | false => rw [hok, if_neg Bool.false_ne_true] at h; cases h
  | true => exact ⟨rfl, by rwa [hok, if_pos rfl] at h⟩

theorem exec_subset (held : List R) (c : Teardown R) : (c.exec held).1 ⊆ held := by
  cases c with
  | use r => exact List.Subset.refl held
  | release r => exact List.erase_subset

theorem workStep_sound (h : Sound D unbinds all s) (granted : Bool) :
    Sound D unbinds all (workStep s granted) := by
  obtain ⟨loaded, going, bound, work, held, files, refs, stray, harmed⟩ := s
  obtain ⟨hstage, hstray⟩ := h
  obtain rfl : stray = false := hstray
  simp only at hstage
  cases hstage with
  | out => exact ⟨.out, rfl⟩
  | unbound => exact ⟨.unbound going, rfl⟩
  | bound => exact ⟨.bound, rfl⟩
  | @probing rest _ left late published =>
    match rest with
    | [] =>
      obtain rfl : held = all := Option.some.inj left
      exact ⟨.bound, rfl⟩
    | .use r :: rest =>
      rw [probes] at left
      by_cases hr : r ∈ held
      · rw [if_pos hr] at left
        refine ⟨.probing left late fun hnode => ?_, by simp [workStep, hr]⟩
        cases published hnode
      · rw [if_neg hr] at left
        cases left
    | .acquire r error :: rest =>
      rw [probes] at left
      by_cases herror : after held error = some []
      case neg =>
        rw [if_neg herror] at left
        cases left
      rw [if_pos herror] at left
      have hhidden : D.node ∉ held := fun hnode => by cases published hnode
      cases granted with
      | false => exact ⟨.unwinding herror hhidden, rfl⟩
      | true =>
        refine ⟨.probing left late.2 fun hnode => ?_, rfl⟩
        rcases List.mem_append.mp hnode with hheld | hr
        · exact absurd hheld hhidden
        · exact late.1 (List.mem_singleton.mp hr).symm
  | @unwinding rest _ left hidden =>
    match rest with
    | [] =>
      obtain rfl : held = [] := Option.some.inj left
      exact ⟨.unbound false, rfl⟩
    | c :: rest =>
      obtain ⟨hok, hleft⟩ := exec_of_after left
      refine ⟨.unwinding hleft fun hnode => hidden (exec_subset held c hnode), ?_⟩
      simp [workStep, hok]
  | @removing rest _ _ left cause =>
    match rest with
    | [] =>
      obtain rfl : held = [] := Option.some.inj left
      exact ⟨.unbound going, rfl⟩
    | c :: rest =>
      obtain ⟨hok, hleft⟩ := exec_of_after left
      exact ⟨.removing hleft cause, by simp [workStep, hok]⟩

theorem coreStep_sound (O : Orderly D all) (h : Sound D unbinds all s) (a : Act P R) :
    Sound D unbinds all (coreStep D unbinds s a) := by
  obtain ⟨loaded, going, bound, work, held, files, refs, stray, harmed⟩ := s
  obtain ⟨hstage, hstray⟩ := h
  obtain rfl : stray = false := hstray
  have hprobe : Stage D unbinds all true false false (.probing D.probe) [] :=
    .probing O.probe O.late fun hnode => absurd hnode List.not_mem_nil
  simp only at hstage
  cases hstage with
  | probing left late published => cases a <;> exact ⟨.probing left late published, rfl⟩
  | unwinding left hidden => cases a <;> exact ⟨.unwinding left hidden, rfl⟩
  | removing left cause => cases a <;> exact ⟨.removing left cause, rfl⟩
  | out =>
    cases a with
    | insmod => exact ⟨.unbound false, rfl⟩
    | unbind => cases unbinds <;> exact ⟨.out, rfl⟩
    | _ => exact ⟨.out, rfl⟩
  | unbound =>
    cases a with
    | offer =>
      cases going with
      | false => exact ⟨hprobe, rfl⟩
      | true => exact ⟨.unbound true, rfl⟩
    | unbind => cases unbinds <;> exact ⟨.unbound going, rfl⟩
    | rmmod =>
      simp only [coreStep]
      split
      · exact ⟨.unbound true, rfl⟩
      · exact ⟨.unbound going, rfl⟩
    | unload =>
      cases going with
      | false => exact ⟨.unbound false, rfl⟩
      | true => exact ⟨.out, rfl⟩
    | _ => exact ⟨.unbound going, rfl⟩
  | bound =>
    cases a with
    | unbind =>
      cases unbinds with
      | false => exact ⟨.bound, rfl⟩
      | true => exact ⟨.removing O.remove fun h => absurd h (by decide), rfl⟩
    | rmmod =>
      simp only [coreStep]
      split
      · exact ⟨.removing O.remove fun _ => rfl, rfl⟩
      · exact ⟨.bound, rfl⟩
    | _ => exact ⟨.bound, rfl⟩

/-- Between the calls of the driver core, a driver holds all of its resources or none. -/
theorem Sound.settled (h : Sound D unbinds all s) :
    (s.work = .idle → s.held = if s.bound then all else []) ∧ (s.loaded = false → s.held = []) := by
  obtain ⟨loaded, going, bound, work, held, files, refs, stray, harmed⟩ := s
  have hstage := h.stage
  simp only at hstage ⊢
  cases hstage <;> simp

/-- The driver is bound, or nothing but the end of the probe is missing. -/
def Serving (s : State P R) : Prop := (s.work = .idle ∧ s.bound = true) ∨ s.work = .probing []

theorem Sound.served (h : Sound D unbinds all s) (hserving : Serving s) :
    s.loaded = true ∧ s.held = all := by
  obtain ⟨loaded, going, bound, work, held, files, refs, stray, harmed⟩ := s
  have hstage := h.stage
  simp only [Serving] at hstage hserving ⊢
  cases hstage with
  | out | unbound => simp at hserving
  | unwinding | removing => simp at hserving
  | bound => exact ⟨rfl, rfl⟩
  | probing left late published =>
    obtain rfl : _ = [] := by simpa using hserving
    exact ⟨rfl, Option.some.inj left⟩

theorem Serving.workStep (h : Serving s) (granted : Bool) : Serving (workStep s granted) := by
  obtain ⟨loaded, going, bound, work, held, files, refs, stray, harmed⟩ := s
  rcases h with ⟨hwork, hbound⟩ | hwork
  · obtain rfl : work = .idle := hwork
    exact Or.inl ⟨rfl, hbound⟩
  · obtain rfl : work = .probing [] := hwork
    exact Or.inl ⟨rfl, rfl⟩

/-- Nothing is taken from a driver that serves and is held. -/
theorem Sound.coreStep_eq (h : Sound D false all s) (hserving : Serving s) (hrefs : s.refs ≠ 0)
    (a : Act P R) : coreStep D false s a = s := by
  obtain ⟨loaded, going, bound, work, held, files, refs, stray, harmed⟩ := s
  obtain ⟨hloaded, -⟩ := h.served hserving
  obtain rfl : loaded = true := hloaded
  have hheld : (refs == 0) = false := by simpa using hrefs
  rcases hserving with ⟨hwork, hbound⟩ | hwork
  · obtain rfl : work = .idle := hwork
    obtain rfl : bound = true := hbound
    cases a with
    | rmmod => simp [coreStep, hheld]
    | _ => simp [coreStep]
  · obtain rfl : work = .probing [] := hwork
    cases a <;> rfl

theorem workStep_users (s : State P R) (granted : Bool) :
    (workStep s granted).files = s.files ∧ (workStep s granted).refs = s.refs ∧
      (workStep s granted).harmed = s.harmed := by
  unfold workStep
  repeat' split
  all_goals exact ⟨rfl, rfl, rfl⟩

omit [DecidableEq R] in
theorem coreStep_users (D : Removable R) (unbinds : Bool) (s : State P R) (a : Act P R) :
    (coreStep D unbinds s a).files = s.files ∧ (coreStep D unbinds s a).refs = s.refs ∧
      (coreStep D unbinds s a).harmed = s.harmed := by
  unfold coreStep
  repeat' split
  all_goals exact ⟨rfl, rfl, rfl⟩

/-- Where the node is there and the module is not going, the driver serves. -/
theorem Sound.serving_of_node (h : Sound D false all s) (hnode : D.node ∈ s.held)
    (hstays : s.going = false) : Serving s := by
  obtain ⟨loaded, going, bound, work, held, files, refs, stray, harmed⟩ := s
  have hstage := h.stage
  simp only at hstage hnode hstays
  cases hstage with
  | out | unbound => exact absurd hnode List.not_mem_nil
  | probing left late published =>
    rw [published hnode]
    exact Or.inr rfl
  | unwinding left hidden => exact absurd hnode hidden
  | bound => exact Or.inl ⟨rfl, rfl⟩
  | removing left cause => exact absurd (cause rfl) (by simp [hstays])

variable [DecidableEq P]

/-- What the users do. A file can be opened while the node is there and, where it holds the module,
while this is not going; what is called is the code of the module. -/
def fileStep (D : Removable R) (s : State P R) (a : Act P R) : State P R :=
  match a with
  | .openFile p =>
    match s.files p with
    | .closed =>
      if D.node ∈ s.held ∧ ¬ (D.owner = true ∧ s.going = true) then
        { s with files := Function.update s.files p .opened,
                 refs := if D.owner then s.refs + 1 else s.refs }
      else s
    | _ => s
  | .call p body =>
    match s.files p with
    | .opened =>
      if body ∈ D.calls then
        { s with files := Function.update s.files p (.running body),
                 harmed := s.harmed || !s.loaded }
      else s
    | _ => s
  | .run p =>
    match s.files p with
    | .running [] => { s with files := Function.update s.files p .opened }
    | .running (r :: rest) =>
      { s with files := Function.update s.files p (.running rest),
               harmed := s.harmed || !(s.loaded && decide (r ∈ s.held)) }
    | _ => s
  | .closeFile p =>
    match s.files p with
    | .opened =>
      { s with files := Function.update s.files p .closed,
               refs := if D.owner then s.refs - 1 else s.refs, harmed := s.harmed || !s.loaded }
    | _ => s
  | _ => s

def step (D : Removable R) (unbinds : Bool) (s : State P R) (a : Act P R) : State P R :=
  match a with
  | .work granted => workStep s granted
  | .insmod | .offer | .unbind | .rmmod | .unload => coreStep D unbinds s a
  | _ => fileStep D s a

def machine (D : Removable R) (unbinds : Bool) : Machine (State P R) (Act P R) :=
  ⟨start, D.step unbinds⟩

theorem fileStep_sound (h : Sound D unbinds all s) (a : Act P R) :
    Sound D unbinds all (fileStep D s a) := by
  obtain ⟨hstage, hstray⟩ := h
  cases a with
  | openFile p | call p body | run p | closeFile p =>
    simp only [fileStep]
    repeat' split
    all_goals exact ⟨hstage, hstray⟩
  | _ => exact ⟨hstage, hstray⟩

theorem Sound.step (h : Sound D unbinds all s) (O : Orderly D all) (a : Act P R) :
    Sound D unbinds all (D.step unbinds s a) := by
  cases a with
  | work granted => exact workStep_sound h granted
  | insmod | offer | unbind | rmmod | unload => exact coreStep_sound O h _
  | openFile p => exact fileStep_sound h (.openFile p)
  | call p body => exact fileStep_sound h (.call p body)
  | run p => exact fileStep_sound h (.run p)
  | closeFile p => exact fileStep_sound h (.closeFile p)

theorem run_sound (O : Orderly D all) (acts : List (Act P R)) :
    Sound D unbinds all ((machine D unbinds).run acts) :=
  (machine D unbinds).run_invariant ⟨.out, rfl⟩ (fun _ a h => h.step O a) acts

variable [Fintype P]

/-- The users of a driver whose open files hold the module, which is not taken from its device. -/
structure Calm (all : List R) (s : State P R) : Prop where
  refs : s.refs = countWhere File.isOpen s.files
  serving : ∀ p, (s.files p).isOpen = true → Serving s
  running : ∀ p rest, s.files p = .running rest → ∀ r ∈ rest, r ∈ all
  harmed : s.harmed = false

omit [DecidableEq R] in
theorem Calm.refs_pos (h : Calm all s) {p : P} (hopen : (s.files p).isOpen = true) :
    s.refs ≠ 0 := by
  have hcount := countWhere_update File.isOpen s.files p .closed
  rw [hopen, h.refs.symm] at hcount
  simp only [Bool.toNat_true, File.isOpen, Bool.toNat_false] at hcount
  omega

omit [DecidableEq P] in
theorem Calm.workStep (h : Calm all s) (granted : Bool) : Calm all (workStep s granted) := by
  obtain ⟨hfiles, hrefs, hharmed⟩ := workStep_users s granted
  refine ⟨?_, ?_, ?_, ?_⟩
  · rw [hrefs, hfiles, h.refs]
  · intro p hopen
    rw [hfiles] at hopen
    exact (h.serving p hopen).workStep granted
  · rw [hfiles]
    exact h.running
  · rw [hharmed, h.harmed]

theorem Calm.coreStep (h : Calm all s) (hsound : Sound D false all s) (a : Act P R) :
    Calm all (coreStep D false s a) := by
  obtain ⟨hfiles, hrefs, hharmed⟩ := coreStep_users D false s a
  refine ⟨?_, ?_, ?_, ?_⟩
  · rw [hrefs, hfiles, h.refs]
  · intro p hopen
    rw [hfiles] at hopen
    have hserving := h.serving p hopen
    rwa [hsound.coreStep_eq hserving (h.refs_pos hopen)]
  · rw [hfiles]
    exact h.running
  · rw [hharmed, h.harmed]

omit [DecidableEq R] in
/-- A file that changes under a driver that serves. -/
theorem Calm.update (h : Calm all s) (hserving : Serving s) (p : P) (file : File R) (refs : Nat)
    (hrefs : refs + (s.files p).isOpen.toNat = s.refs + file.isOpen.toNat)
    (hbody : ∀ rest, file = .running rest → ∀ r ∈ rest, r ∈ all) :
    Calm all { s with files := Function.update s.files p file, refs := refs } where
  refs := by
    have hcount := countWhere_update File.isOpen s.files p file
    rw [h.refs] at hrefs
    show refs = countWhere File.isOpen (Function.update s.files p file)
    omega
  serving _ _ := hserving
  running q rest hq := by
    by_cases hqp : q = p
    · subst hqp
      exact hbody rest (by simpa using hq)
    · exact h.running q rest (by simpa [hqp] using hq)
  harmed := h.harmed

theorem Calm.fileStep (h : Calm all s) (hsound : Sound D false all s) (O : Orderly D all)
    (howner : D.owner = true) (a : Act P R) : Calm all (fileStep D s a) := by
  have hserved {p : P} (hopen : (s.files p).isOpen = true) := hsound.served (h.serving p hopen)
  cases a with
  | openFile p =>
    simp only [Removable.fileStep, howner, true_and, if_true]
    cases hfile : s.files p with
    | opened | running rest => exact h
    | closed =>
      simp only
      split
      case isFalse => exact h
      case isTrue hopens =>
        have hstays : s.going = false := by simpa using hopens.2
        apply h.update (hsound.serving_of_node hopens.1 hstays)
        · simp [hfile, File.isOpen]
        · simp
  | call p body =>
    simp only [Removable.fileStep]
    cases hfile : s.files p with
    | closed | running rest => exact h
    | opened =>
      have hopen : (s.files p).isOpen = true := by rw [hfile]; rfl
      simp only
      split
      case isFalse => exact h
      case isTrue hbody =>
        have hupdate := h.update (h.serving p hopen) p (.running body) s.refs
          (by simp [hfile, File.isOpen]) (fun rest hrest => ?_)
        · simpa [(hserved hopen).1] using hupdate
        · obtain rfl := File.running.inj hrest
          exact O.calls body hbody
  | run p =>
    simp only [Removable.fileStep]
    cases hfile : s.files p with
    | closed | opened => exact h
    | running rest =>
      have hopen : (s.files p).isOpen = true := by rw [hfile]; rfl
      obtain ⟨hloaded, hheld⟩ := hserved hopen
      cases rest with
      | nil =>
        apply h.update (h.serving p hopen)
        · simp [hfile, File.isOpen]
        · simp
      | cons r rest =>
        have hall := h.running p (r :: rest) hfile
        have hr : r ∈ s.held := hheld ▸ hall r List.mem_cons_self
        have hupdate := h.update (h.serving p hopen) p (.running rest) s.refs
          (by simp [hfile, File.isOpen]) (fun rest' hrest => ?_)
        · simpa [hloaded, hr] using hupdate
        · obtain rfl := File.running.inj hrest
          exact fun q hq => hall q (List.mem_cons_of_mem r hq)
  | closeFile p =>
    simp only [Removable.fileStep, howner, if_true]
    cases hfile : s.files p with
    | closed | running rest => exact h
    | opened =>
      have hopen : (s.files p).isOpen = true := by rw [hfile]; rfl
      have hpos := h.refs_pos hopen
      have hupdate := h.update (h.serving p hopen) p .closed (s.refs - 1)
        (by simp only [hfile, File.isOpen, Bool.toNat_true, Bool.toNat_false]; omega) (by simp)
      simpa [(hserved hopen).1] using hupdate
  | _ => exact h

theorem Calm.step (h : Calm all s) (hsound : Sound D false all s) (O : Orderly D all)
    (howner : D.owner = true) (a : Act P R) : Calm all (D.step false s a) := by
  cases a with
  | work granted => exact h.workStep granted
  | insmod | offer | unbind | rmmod | unload => exact h.coreStep hsound _
  | openFile p => exact h.fileStep hsound O howner (.openFile p)
  | call p body => exact h.fileStep hsound O howner (.call p body)
  | run p => exact h.fileStep hsound O howner (.run p)
  | closeFile p => exact h.fileStep hsound O howner (.closeFile p)

/-- No user of a driver whose open files hold the module, and which is not taken from its device,
ever uses what is not there. -/
theorem run_calm (O : Orderly D all) (howner : D.owner = true) (acts : List (Act P R)) :
    Calm all ((machine D false).run acts) := by
  apply (machine D false).run_induction (I := fun _ => Calm all)
  · refine ⟨(countWhere_eq_zero fun _ => rfl).symm, ?_, ?_, rfl⟩
    · intro p hopen
      cases hopen
    · intro p rest hrest
      cases hrest
  · intro acts a h
    exact h.step (run_sound O acts) O howner a

end Removable

end KernelDrivers.Framework
