import KernelDrivers.Spinlock.Device

namespace KernelDrivers.Spinlock

open Framework

variable {C μ : Type} {V : Masking μ}

/-- The mask with which a context has begun. -/
def Frame.base (V : Masking μ) (f : Frame μ) : μ :=
  if f.shielded then V.disable f.outer else f.outer

/-- The mask while a context runs. -/
def Frame.mask (V : Masking μ) (f : Frame μ) : μ :=
  if f.pc.masked then V.disable (f.base V) else f.base V

/-- The contexts of a processor fit its mask, and each has interrupted an open one. -/
def Stacked (V : Masking μ) : List (Frame μ) → μ → Prop
  | [], _ => True
  | f :: rest, m => m = f.mask V ∧ (f.pc.masked = true → f.flags = f.base V) ∧
    (rest ≠ [] → V.on f.outer = true) ∧ Stacked V rest f.outer

theorem Pc.holds_of_unmasked {pc : Pc} (h : pc.masked = false) : pc.holds = false := by
  cases pc <;> first | rfl | cases h

theorem Stacked.open {f : Frame μ} {rest : List (Frame μ)} {m : μ} (h : Stacked V (f :: rest) m)
    (hon : V.on m = true) : f.pc.masked = false := by
  by_contra hm
  rw [Bool.not_eq_false] at hm
  rw [h.1, Frame.mask, if_pos hm, V.off] at hon
  cases hon

/-- Only the running context can be masked. -/
theorem Stacked.rest_open {f : Frame μ} {rest : List (Frame μ)} {m : μ}
    (h : Stacked V (f :: rest) m) : ∀ g ∈ rest, g.pc.masked = false := by
  induction rest generalizing f m with
  | nil => exact fun g hg => absurd hg List.not_mem_nil
  | cons g rest ih =>
    obtain ⟨-, -, hon, hrest⟩ := h
    intro g' hg'
    rcases List.mem_cons.mp hg' with rfl | hmem
    · exact hrest.open (hon (List.cons_ne_nil _ _))
    · exact ih hrest g' hmem

/-- On a processor that can be interrupted no context holds the lock. -/
theorem Stacked.quiet_of_open {stack : List (Frame μ)} {m : μ} (h : Stacked V stack m)
    (hopen : stack ≠ [] → V.on m = true) : ∀ g ∈ stack, g.pc.holds = false := by
  cases stack with
  | nil => exact fun g hg => absurd hg List.not_mem_nil
  | cons f rest =>
    intro g hg
    rcases List.mem_cons.mp hg with rfl | hmem
    · exact Pc.holds_of_unmasked (h.open (hopen (List.cons_ne_nil _ _)))
    · exact Pc.holds_of_unmasked (h.rest_open g hmem)

/-- A context that moves on within or outside its masked part keeps the mask. -/
theorem Stacked.goto {f : Frame μ} {rest : List (Frame μ)} {m : μ} (h : Stacked V (f :: rest) m)
    {pc : Pc} (hpc : pc.masked = f.pc.masked) : Stacked V ({ f with pc } :: rest) m := by
  obtain ⟨hm, hflags, hon, hrest⟩ := h
  refine ⟨?_, fun hmasked => hflags (hpc ▸ hmasked), hon, hrest⟩
  rw [hm]
  simp only [Frame.mask, Frame.base, hpc]

theorem Stacked.disable {f : Frame μ} {rest : List (Frame μ)} {m : μ}
    (h : Stacked V (f :: rest) m) (hpc : f.pc = .disable) :
    Stacked V ({ f with pc := .spin, flags := m } :: rest) (V.disable m) := by
  obtain ⟨hm, -, hon, hrest⟩ := h
  have hbase : m = f.base V := by rw [hm, Frame.mask, hpc]; rfl
  refine ⟨?_, fun _ => hbase, hon, hrest⟩
  rw [hbase]
  rfl

theorem Stacked.restore {f : Frame μ} {rest : List (Frame μ)} {m : μ}
    (h : Stacked V (f :: rest) m) (hpc : f.pc = .restore) :
    Stacked V ({ f with pc := .ret } :: rest) (V.restore f.flags m) := by
  obtain ⟨hm, hflags, hon, hrest⟩ := h
  have hflags' : f.flags = f.base V := hflags (by rw [hpc]; rfl)
  have hmask : m = V.disable (f.base V) := by rw [hm, Frame.mask, hpc]; rfl
  refine ⟨?_, fun hmasked => absurd hmasked Bool.false_ne_true, hon, hrest⟩
  rw [hflags', hmask, V.undo]
  rfl

theorem Stacked.ret {f : Frame μ} {rest : List (Frame μ)} {m : μ}
    (h : Stacked V (f :: rest) m) (hpc : f.pc = .ret) :
    Stacked V rest (if f.shielded then V.restore f.outer m else m) := by
  obtain ⟨hm, -, -, hrest⟩ := h
  have hbase : m = f.base V := by rw [hm, Frame.mask, hpc]; rfl
  have hmask : (if f.shielded then V.restore f.outer m else m) = f.outer := by
    rw [hbase, Frame.base]
    cases f.shielded with
    | false => rfl
    | true => exact V.undo f.outer
  rw [hmask]
  exact hrest

variable {s : System C μ}

/-- The one context that holds the lock, if there is one. -/
def Held (s : System C μ) : Option (C × Frame μ) → Prop
  | none => s.locked = false ∧ ∀ d, ∀ g ∈ (s.cpu d).stack, g.pc.holds = false
  | some (c, f) => s.locked = true ∧ f ∈ (s.cpu c).stack ∧ f.pc.holds = true ∧
    ∀ d, ∀ g ∈ (s.cpu d).stack, g.pc.holds = true → d = c ∧ g = f

/-- Whole triples of lines, each from one call. -/
inductive Triples : List Line → Prop where
  | nil : Triples []
  | snoc (lines : List Line) (x y z : Line) : Triples lines → x.call = y.call → y.call = z.call →
    Triples (lines ++ [x, y, z])

/-- How many lines the current holder has printed, and how many of them it has counted. -/
def Pc.printed : Pc → Nat
  | .printk i => i
  | .countUp i => i + 1
  | .unlock => OUT_STRING_CNT
  | _ => 0

def Pc.counted : Pc → Nat
  | .printk i => i
  | .countUp i => i
  | .unlock => OUT_STRING_CNT
  | _ => 0

/-- The log so far: whole triples, and the lines of the holder, which number as it says. -/
structure Logged (gCount : Int32) (log : List Line) (holder : Option (C × Frame μ)) : Prop where
  split : ∃ full own, log = full ++ own ∧ Triples full ∧
    (∀ line ∈ own, ∃ c f, holder = some (c, f) ∧ line.call = f.call) ∧
    own.length = (holder.map fun h => h.2.pc.printed).getD 0 ∧
    gCount = Int32.ofNat (full.length + (holder.map fun h => h.2.pc.counted).getD 0)
  rounds : ∀ c f i, holder = some (c, f) → f.pc = .printk i ∨ f.pc = .countUp i → i < OUT_STRING_CNT
  counts : ∀ i line, log[i]? = some line → line.count = Int32.ofNat i

structure Inv (V : Masking μ) (s : System C μ) : Prop where
  stacked : ∀ c, Stacked V (s.cpu c).stack (s.cpu c).mask
  held : ∃ holder, Held s holder ∧ Logged s.gCount s.log holder

theorem Triples.length {lines : List Line} (h : Triples lines) : lines.length % 3 = 0 := by
  induction h with
  | nil => rfl
  | snoc lines x y z _ _ _ ih =>
    rw [List.length_append]
    simp only [List.length_cons, List.length_nil]
    omega

/-- What `Triples` says about the lines by their numbers. -/
theorem Triples.same_call {lines : List Line} (h : Triples lines) {more : List Line} {k : Nat}
    (hk : 3 * k < lines.length) {x y z : Line} (hx : (lines ++ more)[3 * k]? = some x)
    (hy : (lines ++ more)[3 * k + 1]? = some y) (hz : (lines ++ more)[3 * k + 2]? = some z) :
    x.call = y.call ∧ y.call = z.call := by
  induction h generalizing more with
  | nil => cases hk
  | snoc lines a b c hlines hab hbc ih =>
    have hlen := hlines.length
    rw [List.append_assoc] at hx hy hz
    by_cases hlast : 3 * k < lines.length
    · exact ih hlast hx hy hz
    · have heq : 3 * k = lines.length := by
        rw [List.length_append] at hk
        simp only [List.length_cons, List.length_nil] at hk
        omega
      rw [heq] at hx hy hz
      simp at hx hy hz
      rw [← hx, ← hy, ← hz]
      exact ⟨hab, hbc⟩

namespace Logged

variable {gCount : Int32} {log : List Line} {c : C} {f : Frame μ}

theorem take (h : Logged gCount log (none : Option (C × Frame μ))) :
    Logged gCount log (some (c, { f with pc := .printk 0 })) where
  split := by
    obtain ⟨full, own, hlog, hfull, hcalls, hlen, hcount⟩ := h.split
    refine ⟨full, own, hlog, hfull, fun line hline => ?_, hlen, hcount⟩
    obtain ⟨c', f', hnone, -⟩ := hcalls line hline
    cases hnone
  rounds c' f' i hholder hpc := by
    obtain ⟨-, rfl⟩ := Prod.mk.inj (Option.some.inj hholder)
    rcases hpc with hpc | hpc
    · obtain rfl := Pc.printk.inj hpc
      decide
    · cases hpc
  counts := h.counts

theorem printk {i : Nat} (h : Logged gCount log (some (c, f))) (hpc : f.pc = .printk i) :
    Logged gCount (log ++ [⟨gCount, f.str, f.call⟩]) (some (c, { f with pc := .countUp i })) where
  split := by
    obtain ⟨full, own, hlog, hfull, hcalls, hlen, hcount⟩ := h.split
    simp only [Option.map_some, Option.getD_some, hpc, Pc.printed, Pc.counted] at hlen hcount
    refine ⟨full, own ++ [⟨gCount, f.str, f.call⟩], by rw [hlog, List.append_assoc], hfull,
      fun line hline => ⟨c, _, rfl, ?_⟩, by simp [hlen, Pc.printed], hcount⟩
    rcases List.mem_append.mp hline with hmem | hmem
    · obtain ⟨c', f', hholder, hcall⟩ := hcalls line hmem
      obtain ⟨-, rfl⟩ := Prod.mk.inj (Option.some.inj hholder)
      exact hcall
    · rw [List.mem_singleton.mp hmem]
  rounds c' f' j hholder hj := by
    obtain ⟨-, rfl⟩ := Prod.mk.inj (Option.some.inj hholder)
    rcases hj with hj | hj
    · cases hj
    · obtain rfl := Pc.countUp.inj hj
      exact h.rounds c f i rfl (Or.inl hpc)
  counts j line hj := by
    obtain ⟨full, own, hlog, -, -, hlen, hcount⟩ := h.split
    simp only [Option.map_some, Option.getD_some, hpc, Pc.printed, Pc.counted] at hlen hcount
    by_cases hold : j < log.length
    · rw [List.getElem?_append_left hold] at hj
      exact h.counts j line hj
    · -- the new line has the number that comes after the old ones
      rw [List.getElem?_append_right (Nat.le_of_not_lt hold), List.getElem?_singleton] at hj
      by_cases hfirst : j - log.length = 0
      · rw [if_pos hfirst] at hj
        have hj' : j = full.length + i := by
          rw [← hlen, ← List.length_append, ← hlog]
          omega
        rw [← Option.some.inj hj, hj']
        exact hcount
      · rw [if_neg hfirst] at hj
        cases hj

theorem countUp {i : Nat} (h : Logged gCount log (some (c, f))) (hpc : f.pc = .countUp i) :
    Logged (gCount + 1) log (some (c, { f with
      pc := if i + 1 < OUT_STRING_CNT then .printk (i + 1) else .unlock })) where
  split := by
    have hround := h.rounds c f i rfl (Or.inr hpc)
    obtain ⟨full, own, hlog, hfull, hcalls, hlen, hcount⟩ := h.split
    simp only [Option.map_some, Option.getD_some, hpc, Pc.printed, Pc.counted] at hlen hcount
    refine ⟨full, own, hlog, hfull, fun line hline => ⟨c, _, rfl, ?_⟩, ?_, ?_⟩
    · obtain ⟨c', f', hholder, hcall⟩ := hcalls line hline
      obtain ⟨-, rfl⟩ := Prod.mk.inj (Option.some.inj hholder)
      exact hcall
    · by_cases hlast : i + 1 < OUT_STRING_CNT
      · simp [hlast, hlen, Pc.printed]
      · simp only [hlast, Pc.printed, Option.map_some, Option.getD_some, if_false]
        omega
    · have hnext : gCount + 1 = Int32.ofNat (full.length + (i + 1)) := by
        rw [hcount, ← Nat.add_assoc, Int32.ofNat_add (full.length + i) 1]
        rfl
      rw [hnext]
      by_cases hlast : i + 1 < OUT_STRING_CNT
      · simp [hlast, Pc.counted]
      · have hthree : i + 1 = OUT_STRING_CNT := by omega
        simp [hthree, Pc.counted]
  rounds c' f' j hholder hj := by
    obtain ⟨-, rfl⟩ := Prod.mk.inj (Option.some.inj hholder)
    by_cases hlast : i + 1 < OUT_STRING_CNT
    · simp only [hlast, if_true, Pc.printk.injEq, reduceCtorEq, or_false] at hj
      rw [← hj]
      exact hlast
    · simp [hlast] at hj
  counts := h.counts

theorem unlock (h : Logged gCount log (some (c, f))) (hpc : f.pc = .unlock) :
    Logged gCount log (none : Option (C × Frame μ)) where
  split := by
    obtain ⟨full, own, hlog, hfull, hcalls, hlen, hcount⟩ := h.split
    simp only [Option.map_some, Option.getD_some, hpc, Pc.printed, Pc.counted] at hlen hcount
    have hcall : ∀ line ∈ own, line.call = f.call := by
      intro line hline
      obtain ⟨c', f', hholder, hcall⟩ := hcalls line hline
      obtain ⟨-, rfl⟩ := Prod.mk.inj (Option.some.inj hholder)
      exact hcall
    obtain ⟨x, y, z, rfl⟩ := List.length_eq_three.mp hlen
    refine ⟨full ++ [x, y, z], [], by rw [hlog, List.append_nil], ?_, by simp, rfl, ?_⟩
    · refine Triples.snoc full x y z hfull ?_ ?_
      · rw [hcall x (by simp), hcall y (by simp)]
      · rw [hcall y (by simp), hcall z (by simp)]
    · rw [hcount]
      simp [OUT_STRING_CNT]
  rounds _ _ _ hnone := by cases hnone
  counts := h.counts

end Logged

section Steps

variable [DecidableEq C]

theorem cpu_self {s' : System C μ} {c : C} {cpu : Cpu μ}
    (hcpu : s'.cpu = Function.update s.cpu c cpu) : s'.cpu c = cpu := by
  rw [hcpu, Function.update_self]

theorem cpu_of_ne {s' : System C μ} {c d : C} {cpu : Cpu μ}
    (hcpu : s'.cpu = Function.update s.cpu c cpu) (hd : d ≠ c) : s'.cpu d = s.cpu d := by
  rw [hcpu, Function.update_of_ne hd]

/-- A step on processor `c` keeps the other masks. -/
theorem stacked_update (h : ∀ d, Stacked V (s.cpu d).stack (s.cpu d).mask) {s' : System C μ}
    {c : C} {cpu : Cpu μ} (hcpu : s'.cpu = Function.update s.cpu c cpu)
    (hc : Stacked V cpu.stack cpu.mask) : ∀ d, Stacked V (s'.cpu d).stack (s'.cpu d).mask := by
  intro d
  by_cases hd : d = c
  · subst hd
    rw [cpu_self hcpu]
    exact hc
  · rw [cpu_of_ne hcpu hd]
    exact h d

/-- A step on a processor without the lock, before and after, leaves the lock to its holder. -/
theorem held_quiet {holder : Option (C × Frame μ)} (h : Held s holder) {s' : System C μ} {c : C}
    {cpu : Cpu μ} (hlocked : s'.locked = s.locked) (hcpu : s'.cpu = Function.update s.cpu c cpu)
    (hbefore : ∀ g ∈ (s.cpu c).stack, g.pc.holds = false)
    (hafter : ∀ g ∈ cpu.stack, g.pc.holds = false) : Held s' holder := by
  cases holder with
  | none =>
    refine ⟨hlocked.trans h.1, fun d g hg => ?_⟩
    by_cases hd : d = c
    · subst hd
      rw [cpu_self hcpu] at hg
      exact hafter g hg
    · rw [cpu_of_ne hcpu hd] at hg
      exact h.2 d g hg
  | some hf =>
    obtain ⟨c', f⟩ := hf
    obtain ⟨hl, hf, hholds, hunique⟩ := h
    have hc' : c' ≠ c := by
      rintro rfl
      exact absurd (hholds.symm.trans (hbefore f hf)) (by decide)
    refine ⟨hlocked.trans hl, by rw [cpu_of_ne hcpu hc']; exact hf, hholds, fun d g hg hgh => ?_⟩
    by_cases hd : d = c
    · subst hd
      rw [cpu_self hcpu] at hg
      exact absurd (hgh.symm.trans (hafter g hg)) (by decide)
    · rw [cpu_of_ne hcpu hd] at hg
      exact hunique d g hg hgh

/-- The running context of `c` has taken the lock, or has kept it, or has given it back. -/
theorem held_move {s' : System C μ} {c : C} {f : Frame μ} {rest : List (Frame μ)} {mask : μ}
    (hcpu : s'.cpu = Function.update s.cpu c ⟨f :: rest, mask⟩) (hlocked : s'.locked = f.pc.holds)
    (hrest : ∀ g ∈ rest, g.pc.holds = false)
    (hothers : ∀ d, d ≠ c → ∀ g ∈ (s.cpu d).stack, g.pc.holds = false) :
    Held s' (if f.pc.holds then some (c, f) else none) := by
  have hcases (d : C) (g : Frame μ) (hg : g ∈ (s'.cpu d).stack) :
      (d = c ∧ g = f) ∨ g.pc.holds = false := by
    by_cases hd : d = c
    · subst hd
      rw [cpu_self hcpu] at hg
      rcases List.mem_cons.mp hg with rfl | hmem
      · exact Or.inl ⟨rfl, rfl⟩
      · exact Or.inr (hrest g hmem)
    · rw [cpu_of_ne hcpu hd] at hg
      exact Or.inr (hothers d hd g hg)
  cases hf : f.pc.holds with
  | true =>
    rw [if_pos rfl]
    refine ⟨hlocked.trans hf, by rw [cpu_self hcpu]; exact List.mem_cons_self, hf, ?_⟩
    intro d g hg hgh
    exact (hcases d g hg).resolve_right (by rw [hgh]; decide)
  | false =>
    rw [if_neg Bool.false_ne_true]
    refine ⟨hlocked.trans hf, fun d g hg => ?_⟩
    rcases hcases d g hg with ⟨-, rfl⟩ | hno
    · exact hf
    · exact hno

theorem push_inv (h : Inv V s) {c : C} (str : String) (shielded : Bool)
    (hopen : (s.cpu c).stack ≠ [] → V.on (s.cpu c).mask = true) :
    Inv V (s.push V c str shielded) where
  stacked := by
    apply stacked_update h.stacked rfl
    refine ⟨?_, fun hm => absurd hm Bool.false_ne_true, hopen, h.stacked c⟩
    cases shielded <;> rfl
  held := by
    obtain ⟨holder, hheld, hlogged⟩ := h.held
    have hquiet := (h.stacked c).quiet_of_open hopen
    refine ⟨holder, held_quiet hheld rfl rfl hquiet ?_, hlogged⟩
    intro g hg
    rcases List.mem_cons.mp hg with rfl | hmem
    · rfl
    · exact hquiet g hmem

omit [DecidableEq C] in
/-- The running context holds the lock, or nobody does. -/
theorem held_cases {holder : Option (C × Frame μ)} (h : Held s holder) {c : C} {f : Frame μ}
    (hf : f ∈ (s.cpu c).stack) (howner : s.locked = false ∨ f.pc.holds = true) :
    (holder = if f.pc.holds then some (c, f) else none) ∧
      ∀ d, d ≠ c → ∀ g ∈ (s.cpu d).stack, g.pc.holds = false := by
  cases holder with
  | none => exact ⟨by rw [h.2 c f hf]; rfl, fun d _ => h.2 d⟩
  | some hf' =>
    obtain ⟨c', f'⟩ := hf'
    obtain ⟨hl, -, -, hunique⟩ := h
    rcases howner with hfree | hholds
    · exact absurd (hl.symm.trans hfree) (by decide)
    · obtain ⟨rfl, rfl⟩ := hunique c f hf hholds
      refine ⟨by rw [if_pos hholds], fun d hd g hg => ?_⟩
      by_contra hg'
      rw [Bool.not_eq_false] at hg'
      exact hd (hunique d g hg hg').1

/-- The steps of a context outside the lock leave lock and log alone. -/
theorem step_outside (h : Inv V s) {c : C} {f : Frame μ} {rest : List (Frame μ)}
    (hstack : (s.cpu c).stack = f :: rest) {s' : System C μ} {cpu : Cpu μ}
    (hcpu : s'.cpu = Function.update s.cpu c cpu) (hlocked : s'.locked = s.locked)
    (hlog : s'.gCount = s.gCount ∧ s'.log = s.log) (hf : f.pc.holds = false)
    (hstacked : Stacked V cpu.stack cpu.mask)
    (hafter : ∀ g ∈ cpu.stack, g.pc.holds = true → g ∈ rest) : Inv V s' where
  stacked := stacked_update h.stacked hcpu hstacked
  held := by
    obtain ⟨holder, hheld, hlogged⟩ := h.held
    have hs := h.stacked c
    rw [hstack] at hs
    have hrest (g : Frame μ) (hg : g ∈ rest) := Pc.holds_of_unmasked (hs.rest_open g hg)
    refine ⟨holder, held_quiet hheld hlocked hcpu ?_ ?_, by rw [hlog.1, hlog.2]; exact hlogged⟩
    · intro g hg
      rw [hstack] at hg
      rcases List.mem_cons.mp hg with rfl | hmem
      · exact hf
      · exact hrest g hmem
    · intro g hg
      by_contra hholds
      rw [Bool.not_eq_false] at hholds
      exact absurd (hholds.symm.trans (hrest g (hafter g hg hholds))) (by decide)

/-- The steps of the context that takes, keeps or gives back the lock. -/
theorem step_inside (h : Inv V s) {c : C} {f : Frame μ} {rest : List (Frame μ)}
    (hstack : (s.cpu c).stack = f :: rest) {s' : System C μ} {pc : Pc}
    (hcpu : s'.cpu = Function.update s.cpu c ⟨{ f with pc } :: rest, (s.cpu c).mask⟩)
    (hlocked : s'.locked = pc.holds) (hmasked : pc.masked = f.pc.masked)
    (howner : s.locked = false ∨ f.pc.holds = true)
    (hlogged : Logged s.gCount s.log (if f.pc.holds then some (c, f) else none) →
      Logged s'.gCount s'.log (if pc.holds then some (c, { f with pc }) else none)) : Inv V s' where
  stacked := by
    have hs := h.stacked c
    rw [hstack] at hs
    exact stacked_update h.stacked hcpu (hs.goto hmasked)
  held := by
    obtain ⟨holder, hheld, hlog⟩ := h.held
    have hs := h.stacked c
    rw [hstack] at hs
    have hmem : f ∈ (s.cpu c).stack := by
      rw [hstack]
      exact List.mem_cons_self
    obtain ⟨rfl, hothers⟩ := held_cases hheld hmem howner
    have hrest (g : Frame μ) (hg : g ∈ rest) := Pc.holds_of_unmasked (hs.rest_open g hg)
    exact ⟨_, held_move hcpu hlocked hrest hothers, hlogged hlog⟩

omit [DecidableEq C] in
theorem locked_of_holds (h : Inv V s) {c : C} {f : Frame μ} {rest : List (Frame μ)}
    (hstack : (s.cpu c).stack = f :: rest) (hf : f.pc.holds = true) : s.locked = true := by
  obtain ⟨holder, hheld, -⟩ := h.held
  have hmem : f ∈ (s.cpu c).stack := by
    rw [hstack]
    exact List.mem_cons_self
  obtain ⟨rfl, -⟩ := held_cases hheld hmem (Or.inr hf)
  rw [if_pos hf] at hheld
  exact hheld.1

theorem advance_inv (h : Inv V s) {c : C} {f : Frame μ} {rest : List (Frame μ)}
    (hstack : (s.cpu c).stack = f :: rest) : Inv V (s.advance V c f rest) := by
  have hs := h.stacked c
  rw [hstack] at hs
  have hrest (g : Frame μ) (hg : g ∈ rest) := Pc.holds_of_unmasked (hs.rest_open g hg)
  have htail {pc : Pc} {flags : μ} (hpc : pc.holds = false) :
      ∀ g ∈ { f with pc, flags } :: rest, g.pc.holds = true → g ∈ rest := by
    intro g hg hholds
    rcases List.mem_cons.mp hg with rfl | hmem
    · exact absurd (hholds.symm.trans hpc) (by decide)
    · exact hmem
  unfold System.advance
  cases hpc : f.pc with
  | disable =>
    exact step_outside h hstack rfl rfl ⟨rfl, rfl⟩ (by rw [hpc]; rfl) (hs.disable hpc) (htail rfl)
  | restore =>
    exact step_outside h hstack rfl rfl ⟨rfl, rfl⟩ (by rw [hpc]; rfl) (hs.restore hpc) (htail rfl)
  | ret =>
    exact step_outside h hstack rfl rfl ⟨rfl, rfl⟩ (by rw [hpc]; rfl) (hs.ret hpc)
      fun g hg _ => hg
  | spin =>
    cases hl : s.locked with
    | true => simpa using h
    | false =>
      refine step_inside h hstack rfl rfl (by rw [hpc]; rfl) (Or.inl hl) fun hlog => ?_
      rw [hpc] at hlog
      exact hlog.take
  | printk i =>
    have hlocked := locked_of_holds h hstack (by rw [hpc]; rfl)
    refine step_inside h hstack rfl hlocked (by rw [hpc]; rfl) (Or.inr (by rw [hpc]; rfl))
      fun hlog => ?_
    rw [hpc] at hlog
    exact hlog.printk hpc
  | countUp i =>
    have hlocked := locked_of_holds h hstack (by rw [hpc]; rfl)
    have hnext : (if i + 1 < OUT_STRING_CNT then Pc.printk (i + 1) else .unlock).holds = true ∧
        (if i + 1 < OUT_STRING_CNT then Pc.printk (i + 1) else .unlock).masked = true := by
      by_cases hlast : i + 1 < OUT_STRING_CNT
      · rw [if_pos hlast]
        exact ⟨rfl, rfl⟩
      · rw [if_neg hlast]
        exact ⟨rfl, rfl⟩
    refine step_inside h hstack rfl (hlocked.trans hnext.1.symm) (by rw [hpc]; exact hnext.2)
      (Or.inr (by rw [hpc]; rfl)) fun hlog => ?_
    rw [hpc] at hlog
    rw [if_pos hnext.1]
    exact hlog.countUp hpc
  | unlock =>
    apply step_inside h hstack rfl rfl (by rw [hpc]; rfl) (Or.inr (by rw [hpc]; rfl))
    intro hlog
    rw [hpc] at hlog
    exact hlog.unlock hpc

theorem step_inv (h : Inv V s) (a : Act C) : Inv V (s.step V a) := by
  cases a with
  | spinIoctl c arg =>
    simp only [System.step]
    by_cases hidle : (s.cpu c).stack = []
    · rw [if_pos hidle]
      exact push_inv h arg false fun hne => absurd hidle hne
    · rw [if_neg hidle]
      exact h
  | handler c key shielded =>
    simp only [System.step]
    by_cases hon : V.on (s.cpu c).mask = true
    · rw [if_pos hon]
      have hcounted : Inv V { s with cnt := Function.update s.cnt key (s.cnt key + 1) } :=
        ⟨h.stacked, h.held⟩
      exact push_inv hcounted _ shielded fun _ => hon
    · rw [if_neg hon]
      exact h
  | advance c =>
    cases hstack : (s.cpu c).stack with
    | nil => simpa only [System.step, hstack] using h
    | cons f rest =>
      simp only [System.step, hstack]
      exact advance_inv h hstack

theorem start_inv (V : Masking μ) (C : Type) [DecidableEq C] : Inv V (machine V C).init where
  stacked _ := trivial
  held :=
    ⟨none, ⟨rfl, fun _ _ hg => absurd hg List.not_mem_nil⟩,
      { split := ⟨[], [], rfl, .nil, fun _ hline => absurd hline List.not_mem_nil, rfl, rfl⟩
        rounds := fun _ _ _ hnone => by cases hnone
        counts := fun _ _ hline => by cases hline }⟩

end Steps

/-- The log numbers its lines from zero on and consists of triples of lines of one call, and
no context spins on a processor whose interrupted context holds the lock. -/
structure Orderly (s : System C μ) : Prop where
  counts : ∀ i line, s.log[i]? = some line → line.count = Int32.ofNat i
  triples : ∀ k x y z, s.log[3 * k]? = some x → s.log[3 * k + 1]? = some y →
    s.log[3 * k + 2]? = some z → x.call = y.call ∧ y.call = z.call
  noSelfLock : ∀ c f rest, (s.cpu c).stack = f :: rest → f.pc = .spin →
    ∀ g ∈ rest, g.pc.holds = false

theorem Inv.orderly (h : Inv V s) : Orderly s where
  counts := by
    obtain ⟨holder, -, hlogged⟩ := h.held
    exact hlogged.counts
  triples k x y z hx hy hz := by
    obtain ⟨holder, -, hlogged⟩ := h.held
    obtain ⟨full, own, hlog, hfull, hcalls, -, -⟩ := hlogged.split
    rw [hlog] at hx hy hz
    by_cases hk : 3 * k < full.length
    · exact hfull.same_call hk hx hy hz
    · -- all three are lines of the holder
      have hown (j : Nat) (line : Line) (hj : 3 * k ≤ j) (hline : (full ++ own)[j]? = some line) :
          ∃ c f, holder = some (c, f) ∧ line.call = f.call := by
        rw [List.getElem?_append_right (by omega)] at hline
        exact hcalls line (List.mem_of_getElem? hline)
      obtain ⟨c, f, rfl, hxf⟩ := hown _ x (by omega) hx
      obtain ⟨c', f', hf', hyf⟩ := hown _ y (by omega) hy
      obtain ⟨c'', f'', hf'', hzf⟩ := hown _ z (by omega) hz
      obtain ⟨-, rfl⟩ := Prod.mk.inj (Option.some.inj hf')
      obtain ⟨-, rfl⟩ := Prod.mk.inj (Option.some.inj hf'')
      exact ⟨hxf.trans hyf.symm, hyf.trans hzf.symm⟩
  noSelfLock c f rest hstack _ g hg := by
    have hs := h.stacked c
    rw [hstack] at hs
    exact Pc.holds_of_unmasked (hs.rest_open g hg)

/-- Whatever calls, interrupts and tasklets come to any number of processors, both ways of
taking the lock keep the triples together. -/
theorem print_string_orderly (C : Type) [DecidableEq C] (acts : List (Act C)) :
    Orderly ((machine irqsave C).run acts) ∧ Orderly ((machine bh C).run acts) := by
  constructor
  · apply Inv.orderly
    exact (machine irqsave C).run_invariant (start_inv irqsave C) (fun _ a h => step_inv h a) acts
  · apply Inv.orderly
    exact (machine bh C).run_invariant (start_inv bh C) (fun _ a h => step_inv h a) acts

end KernelDrivers.Spinlock
