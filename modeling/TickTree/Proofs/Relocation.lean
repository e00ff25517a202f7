import TickTree.Proofs.Abreast
import TickTree.Proofs.Tracking
import TickTree.Proofs.Unfolding

/-!
# The same instructions elsewhere

An instruction that is moved to another program, with the indices it names, does there what
it does here (`Tick.advance_abreast`), if the counters that are still read agree. For the
trees of a forest that delegates (`Forest.Delegates`) and a program that holds them
unfolded, every tree is moved into a range of its own (`Forest.Delegates.embeds`).
-/

namespace TickTree

variable {K A : Type}

/-! ## Counters that agree -/

/-- The counters that are still read from an index have the same rounds where they have
been moved to. -/
def Program.Agree (p : Program K A) (m : Nat → Nat) (j : Nat) (s s' : AgentState) : Prop :=
  ∀ c, p.Live c j → s'.rounds (m c) = s.rounds c

/-- No two instructions are moved to the same place, and all are moved into a range. -/
structure Program.Embeds (p : Program K A) (m : Nat → Nat) (lo hi : Nat) : Prop where
  inj : ∀ {c d}, c < p.length → d < p.length → m c = m d → c = d
  lower : ∀ {c}, c < p.length → lo ≤ m c
  upper : ∀ {c}, c < p.length → m c < hi

section

variable {p : Program K A} {m : Nat → Nat} {lo hi j k : Nat} {s s' : AgentState}
  {i : Instruction Nat K A}

theorem Program.Live.lt_length {c : Nat} (h : p.Live c j) : c < p.length := by
  obtain ⟨i, goal, body, hget, -⟩ := h.counter
  exact lt_length_of_get? hget

theorem Program.Agree.of_counters {x x' : AgentState} (h : p.Agree m j s s')
    (hx : x.counters = s.counters) (hx' : x'.counters = s'.counters) : p.Agree m j x x' := by
  intro c hlive
  rw [AgentState.rounds, AgentState.rounds, hx, hx']
  exact h c hlive

/-- Counters keep agreeing over an instruction that sets none. -/
theorem Program.Agree.next (h : p.Agree m j s s') (hget : p.get? j = some i)
    (hop : ∀ c, i.op ≠ .repeatStart c) (hnext : k ∈ i.nexts) : p.Agree m k s s' :=
  fun c hlive => h c (.before hget (hop c) hnext hlive)

/-- A counter that is set in both places agrees, if no other has been moved where it has. -/
theorem Program.Agree.setRounds {c : Nat} (hinj : ∀ d, p.Live d k → m d = m c → d = c)
    (n : UInt32) (h : ∀ d, p.Live d k → d ≠ c → s'.rounds (m d) = s.rounds d) :
    p.Agree m k (s.setRounds c n) (s'.setRounds (m c) n) := by
  intro d hlive
  by_cases hdc : d = c
  · subst hdc
    rw [AgentState.rounds_setRounds, AgentState.rounds_setRounds]
  · have hne : m c ≠ m d := fun heq => hdc (hinj d hlive heq.symm)
    have hkept : ∀ (x : AgentState) {a b : Nat}, a ≠ b →
        (x.setRounds a n).rounds b = x.rounds b := by
      intro x a b hab
      rw [AgentState.rounds, AgentState.rounds]
      exact congrArg (Option.getD · 0) (Table.get?_set_of_ne _ _ hab)
    rw [hkept s' hne, hkept s (fun heq => hdc heq.symm)]
    exact h d hlive hdc

/-- What takes the place of a link leaves the counters of the tree around it alone. -/
theorem Program.Agree.around {extent : TreeId → Nat} {base : Nat} {exit : Verdict → Nat}
    {s'' : AgentState} {l : Link} (h : p.Agree (p.moved extent base exit) j s s')
    (hget : p.get? j = some i) (hop : i.op = .subTree l)
    (hkeeps : AgentState.KeepsOutside (p.moved extent base exit j)
      (p.moved extent base exit j + extent l.tree) s' s'') :
    p.Agree (p.moved extent base exit) j s s'' := by
  intro c hlive
  rw [hkeeps.rounds, h c hlive]
  obtain ⟨i', goal, body, hget', hop'⟩ := hlive.counter
  have hne : c ≠ j := by
    rintro rfl
    rw [hget] at hget'
    cases hget'
    rw [hop] at hop'
    cases hop'
  rcases Nat.lt_or_gt_of_ne hne with hlt | hgt
  · have hle : p.moved extent base exit c + i'.op.width extent ≤ p.moved extent base exit j :=
      moved_add_width_le hget' hlt (lt_length_of_get? hget)
    have hwidth : i'.op.width extent = 1 := by
      rw [hop']
      rfl
    omega
  · have hle : p.moved extent base exit j + i.op.width extent ≤ p.moved extent base exit c :=
      moved_add_width_le hget hgt hlive.lt_length
    rw [hop, Op.width] at hle
    omega

end

/-! ## Steps side by side -/

/-- What two instructions come to that do the same, one of them moved. -/
inductive Move.Along (p : Program K A) (m : Nat → Nat) (lo hi : Nat) (i : Instruction Nat K A)
    (s s' : AgentState) : Move × AgentState → Move × AgentState → Prop where
  | goto {k : Nat} {s₁ s₁' : AgentState} : k ∈ i.nexts → p.Agree m k s₁ s₁' →
      AgentState.KeepsOutside lo hi s' s₁' → Along p m lo hi i s s' (.goto k, s₁) (.goto (m k), s₁')
  | suspend {s₁ s₁' : AgentState} {task : RunnableTask K A} : i.op = .task task →
      s₁.counters = s.counters → s₁'.counters = s'.counters →
      Along p m lo hi i s s' (.suspend, s₁) (.suspend, s₁')
  | stop {e : RunError} {s₁ s₁' : AgentState} : e.innermost = e →
      Along p m lo hi i s s' (.stop e, s₁) (.stop e, s₁')

/-- What two steps come to that do the same, one of them moved. -/
inductive Progress.Along (p : Program K A) (m : Nat → Nat) (lo hi : Nat) (i : Instruction Nat K A)
    (f g : Frame) : Progress → Progress → Prop where
  | underway {f' g' : Frame} : f'.cursor ∈ i.nexts → f'.resumed = false → g'.resumed = false →
      g'.cursor = m f'.cursor → p.Agree m f'.cursor f'.state g'.state →
      AgentState.KeepsOutside lo hi g.state g'.state →
      Along p m lo hi i f g (.underway f') (.underway g')
  | suspended {s s' : AgentState} {task : RunnableTask K A} : i.op = .task task →
      s.counters = f.state.counters → s'.counters = g.state.counters →
      Along p m lo hi i f g (.ended (.ok .running) (s.suspendAt f.cursor))
        (.ended (.ok .running) (s'.suspendAt g.cursor))
  | failed {e : RunError} {s s' : AgentState} : e.innermost = e →
      Along p m lo hi i f g (.ended (.error e) s.rewind) (.ended (.error e) s'.rewind)

theorem Move.Along.follow {p : Program K A} {m : Nat → Nat} {lo hi : Nat}
    {i : Instruction Nat K A} {f g : Frame} {x y : Move × AgentState}
    (h : Move.Along p m lo hi i f.state g.state x y) :
    Progress.Along p m lo hi i f g (Tick.follow f x) (Tick.follow g y) := by
  cases h with
  | goto hnext hagree hkeeps => exact .underway hnext rfl rfl rfl hagree hkeeps
  | suspend hop hs hs' => exact .suspended hop hs hs'
  | stop he => exact .failed he

theorem Query.find_of_shared {q : Query} (h : q.board ≠ .own) (board board' : Blackboard)
    (r : Option Registry) : q.find board r = q.find board' r := by
  obtain ⟨ref, key, predicate⟩ := q
  cases ref with
  | own => exact absurd rfl h
  | shared name => cases r <;> rfl

variable [DecidableEq K]

namespace Tick

variable {tick tick' : Tick K A} {handler handler' : Handler K A} {w v : World K A}
  {m : Nat → Nat} {lo hi : Nat} {f g : Frame} {i : Instruction Nat K A}

/-- An instruction that is no link does the same in two trees. -/
theorem dispatch_abreast (handler handler' : Handler K A) (hagent : tick'.agent = tick.agent)
    (hregistry : tick'.tree.registry = tick.tree.registry) {p : Program K A}
    (hembeds : p.Embeds m lo hi) (htargets : ∀ c, i.op = .repeatStart c → c < p.length)
    {j : Nat} (hget : p.get? j = some i)
    (hlink : ∀ l, i.op ≠ .subTree l) (hfixed : ∀ table, i.op ≠ .randomBranch table)
    (hshared : ∀ q, i.op = .query q → q.board ≠ .own)
    (houtward : ∀ task, i.op = .task task → task.Asks Request.Outward)
    {s s' : AgentState} (hagree : p.Agree m j s s') (resumed : Bool) (h : w.Beside v) :
    w.Abreast v (Move.Along p m lo hi i s s') (tick.dispatch handler j resumed i s w)
      (tick'.dispatch handler' (m j) resumed ⟨i.op.moved m, m i.onSuccess, m i.onFail⟩ s' v) := by
  have hyes : i.onSuccess ∈ i.nexts := .head _
  have hno : i.onFail ∈ i.nexts := .tail _ (.head _)
  obtain ⟨op, yes, no⟩ := i
  have hgoto : (∀ c, op ≠ .repeatStart c) → ∀ {k}, k ∈ (⟨op, yes, no⟩ : Instruction Nat K A).nexts →
      Move.Along p m lo hi ⟨op, yes, no⟩ s s' (.goto k, s) (.goto (m k), s') :=
    fun hop _ hk => .goto hk (hagree.next hget hop hk) fun _ _ => rfl
  cases op with
  | task task =>
    simp only [Op.moved]
    rw [dispatch_task _ _ rfl, dispatch_task _ _ rfl]
    refine (visit_abreast (houtward task rfl) hagent resumed h).bind
      fun (status, board) (_, board') w' v' hsame hbeside => ?_
    obtain ⟨rfl, -, -⟩ := hsame
    refine .done ?_ hbeside rfl rfl
    have hagree' : ∀ {k}, k ∈ (⟨.task task, yes, no⟩ : Instruction Nat K A).nexts →
        p.Agree m k { s with board := board } { s' with board := board' } :=
      fun hk => hagree.next hget (by simp) hk
    cases status with
    | success => exact .goto hyes (hagree' hyes) fun _ _ => rfl
    | failure => exact .goto hno (hagree' hno) fun _ _ => rfl
    | running => exact .suspend rfl rfl rfl
  | query q =>
    have hfind : q.find s'.board (tick'.tree.registry.map v.registry) =
        q.find s.board (tick.tree.registry.map w.registry) := by
      rw [hregistry, q.find_of_shared (hshared q rfl) s'.board s.board]
      congr 1
      cases tick.tree.registry with
      | none => rfl
      | some r => rw [Option.map_some, Option.map_some, h.registry]
    simp only [dispatch, Op.moved, hfind]
    cases hanswer : q.find s.board (tick.tree.registry.map w.registry) with
    | error e =>
      have he := Query.find_error hanswer
      subst he
      exact .done (.stop rfl) ((h.log_left rfl).log_right rfl) rfl rfl
    | ok answer =>
      cases answer with
      | none => exact .done (hgoto (by simp) hno) ((h.log_left rfl).log_right rfl) rfl rfl
      | some passed =>
        cases passed with
        | true => exact .done (hgoto (by simp) hyes) h rfl rfl
        | false => exact .done (hgoto (by simp) hno) h rfl rfl
  | subTree l => exact absurd rfl (hlink l)
  | randomBranch table => exact absurd rfl (hfixed table)
  | repeatStart counter =>
    have hc := htargets counter rfl
    refine .done (.goto hyes ?_ ?_) h rfl rfl
    · refine Program.Agree.setRounds (fun d hlive => hembeds.inj hlive.lt_length hc) 0
        fun d hlive hd => ?_
      refine hagree d (.before hget (fun heq => ?_) hyes hlive)
      cases heq
      exact hd rfl
    · exact AgentState.keepsOutside_setRounds s' 0 (hembeds.lower hc) (hembeds.upper hc)
  | repeatCounter goal body =>
    have hj := Program.lt_length_of_get? hget
    have hrounds : s'.rounds (m j) = s.rounds j := hagree j (.here hget rfl)
    have hagree' : ∀ {k}, k ∈ (⟨.repeatCounter goal body, yes, no⟩ : Instruction Nat K A).nexts →
        p.Agree m k (s.setRounds j (s.rounds j + 1)) (s'.setRounds (m j) (s.rounds j + 1)) :=
      fun hk => Program.Agree.setRounds (fun d hlive => hembeds.inj hlive.lt_length hj) _
        fun d hlive _ => hagree d (.before hget (by simp) hk hlive)
    have hkeeps := AgentState.keepsOutside_setRounds s' (s.rounds j + 1) (hembeds.lower hj)
      (hembeds.upper hj)
    simp only [dispatch, Op.moved, hrounds]
    by_cases hgoal : s.rounds j + 1 > goal
    · simp only [if_pos hgoal]
      exact .done (.goto hyes (hagree' hyes) hkeeps) h rfl rfl
    · simp only [if_neg hgoal]
      have hbody : body ∈ (⟨.repeatCounter goal body, yes, no⟩ : Instruction Nat K A).nexts :=
        .tail _ (.tail _ (.head _))
      exact .done (.goto hbody (hagree' hbody) hkeeps) h rfl rfl
  | hangingSucceed => exact .done (hgoto (by simp) hyes) h rfl rfl
  | hangingFail => exact .done (hgoto (by simp) hno) h rfl rfl

/-- A step at an instruction that is no link does the same in two trees. -/
theorem advance_abreast (hagent : tick'.agent = tick.agent)
    (hregistry : tick'.tree.registry = tick.tree.registry)
    (hfree : tick.tree.config.effectiveLimit = none)
    (hfree' : tick'.tree.config.effectiveLimit = none)
    (hembeds : tick.tree.program.Embeds m lo hi)
    (htargets : ∀ c, i.op = .repeatStart c → c < tick.tree.program.length)
    (hget : tick.tree.program.get? f.cursor = some i)
    (hget' : tick'.tree.program.get? (m f.cursor) =
      some ⟨i.op.moved m, m i.onSuccess, m i.onFail⟩)
    (hlink : ∀ l, i.op ≠ .subTree l) (hfixed : ∀ table, i.op ≠ .randomBranch table)
    (hshared : ∀ q, i.op = .query q → q.board ≠ .own)
    (houtward : ∀ task, i.op = .task task → task.Asks Request.Outward)
    (hcursor : g.cursor = m f.cursor) (hresumed : g.resumed = f.resumed)
    (hagree : tick.tree.program.Agree m f.cursor f.state g.state) (h : w.Beside v) :
    w.Abreast v (Progress.Along tick.tree.program m lo hi i f g) (tick.advance handler f w)
      (tick'.advance handler' g v) := by
  rw [← hcursor] at hget'
  rw [advance_of_get? tick handler f hfree hget w, advance_of_get? tick' handler' g hfree' hget' v]
  have hlogged : (w.log (.dispatched tick.id tick.agent f.cursor)).Beside
      (v.log (.dispatched tick'.id tick'.agent g.cursor)) := h.log rfl
  have hdispatch := dispatch_abreast handler handler' hagent hregistry hembeds htargets hget hlink
    hfixed hshared houtward hagree f.resumed hlogged
  rw [← hcursor] at hdispatch
  rw [hresumed]
  exact (hdispatch.map fun _ _ hmove => hmove.follow).logged

end Tick

/-! ## Delegating forests -/

namespace Forest

/-- The trees of a forest are compiled from definitions without random nodes, each after
those it links to. They share a registry and have no step limits. Queries read shared
boards only, and hooks look outward. -/
structure Delegates (F : Forest K A) (roots : List (Node K A)) (r : Option RegistryId) : Prop where
  built : F.Built roots
  fixed : ∀ root ∈ roots, root.Every (· ≠ .random)
  shared : ∀ {t j q yes no},
    (F.tree t).program.get? j = some ⟨.query q, yes, no⟩ → q.board ≠ .own
  outward : F.Asks Request.Outward
  registry : ∀ {t}, t < roots.length → (F.tree t).registry = r
  unlimited : ∀ {t}, t < roots.length → (F.tree t).config.effectiveLimit = none

variable {F : Forest K A} {roots : List (Node K A)} {r : Option RegistryId} {P : Program K A}
  {t : TreeId} {base : Nat} {exit : Verdict → Nat}

namespace Delegates

variable (hF : F.Delegates roots r) (ht : t < roots.length)
include hF ht

omit [DecidableEq K] in
theorem compiled : compile roots[t] = .ok (F.tree t).program :=
  hF.built.compiled (List.getElem?_eq_getElem ht)

omit [DecidableEq K] in
theorem length_pos : 0 < (F.tree t).program.length :=
  (Node.placed_of_compile (hF.compiled ht)).lt_length

omit [DecidableEq K] in
theorem agree_zero (m : Nat → Nat) (s s' : AgentState) : (F.tree t).program.Agree m 0 s s' :=
  fun c hlive => absurd hlive (Node.not_live_of_compile (hF.compiled ht) c)

omit [DecidableEq K] in
/-- Where a tree goes on is an instruction or one of its ends. -/
theorem next_cases {j k : Nat} {i : Instruction Nat K A}
    (hget : (F.tree t).program.get? j = some i) (hk : k ∈ i.nexts) :
    k < (F.tree t).program.length ∨ ∃ v, k = (F.tree t).program.ends v := by
  rcases Node.goesOn_of_compile (hF.compiled ht) j i (Nat.zero_le j)
    (Program.lt_length_of_get? hget) hget k hk with hin | hend
  · exact .inl hin.2
  · exact .inr hend

omit [DecidableEq K] in
/-- Something takes the place of every tree. -/
theorem extent_pos (h : F.Unfolds (extentOf roots) P t base exit) : 0 < extentOf roots t := by
  induction h with
  | @mk t base exit _ _ hbelow _ ih =>
    have hlength := hF.length_pos ht
    obtain ⟨i, hget⟩ : ∃ i, (F.tree t).program.get? 0 = some i :=
      ⟨_, List.getElem?_eq_getElem hlength⟩
    have hfirst : 0 < i.op.width (extentOf roots) := by
      cases hop : i.op with
      | subTree l => exact ih 0 i l hget hop (Nat.lt_trans (hbelow 0 i l hget hop) ht)
      | _ => exact Nat.one_pos
    have hone : (F.tree t).program.offset (extentOf roots) 1 = i.op.width (extentOf roots) := by
      rw [Program.offset_succ hget, Program.offset_zero, Nat.zero_add]
    have hle : (F.tree t).program.offset (extentOf roots) 1 ≤
        (F.tree t).program.offset (extentOf roots) (F.tree t).program.length :=
      Program.offset_le hlength
    rw [hF.built.offset_length hF.fixed ht] at hle
    omega

omit [DecidableEq K] in
/-- What takes the place of an instruction lies in what takes the place of the tree. -/
theorem moved_bounds (h : F.Unfolds (extentOf roots) P t base exit) {j : Nat}
    {i : Instruction Nat K A} (hget : (F.tree t).program.get? j = some i) :
    base ≤ (F.tree t).program.moved (extentOf roots) base exit j ∧
      (F.tree t).program.moved (extentOf roots) base exit j + i.op.width (extentOf roots) ≤
        base + extentOf roots t ∧ 0 < i.op.width (extentOf roots) := by
  have hj := Program.lt_length_of_get? hget
  have hle : (F.tree t).program.offset (extentOf roots) (j + 1) ≤
      (F.tree t).program.offset (extentOf roots) (F.tree t).program.length :=
    Program.offset_le hj
  rw [hF.built.offset_length hF.fixed ht, Program.offset_succ hget] at hle
  rw [Program.moved_of_lt hj]
  refine ⟨by omega, by omega, ?_⟩
  cases hop : i.op with
  | subTree l =>
    obtain ⟨hbelow, hinner⟩ := h.link hget hop
    exact hF.extent_pos (Nat.lt_trans hbelow ht) hinner
  | _ => exact Nat.one_pos

omit [DecidableEq K] in
theorem embeds (h : F.Unfolds (extentOf roots) P t base exit) :
    (F.tree t).program.Embeds ((F.tree t).program.moved (extentOf roots) base exit) base
      (base + extentOf roots t) := by
  have hbounds : ∀ {c}, c < (F.tree t).program.length → ∃ i,
      (F.tree t).program.get? c = some i ∧ 0 < i.op.width (extentOf roots) ∧
        base ≤ (F.tree t).program.moved (extentOf roots) base exit c ∧
        (F.tree t).program.moved (extentOf roots) base exit c < base + extentOf roots t := by
    intro c hc
    obtain ⟨i, hget⟩ : ∃ i, (F.tree t).program.get? c = some i :=
      ⟨_, List.getElem?_eq_getElem hc⟩
    obtain ⟨hlo, hhi, hpos⟩ := hF.moved_bounds ht h hget
    exact ⟨i, hget, hpos, hlo, by omega⟩
  have hlt : ∀ {c d}, c < d → d < (F.tree t).program.length →
      (F.tree t).program.moved (extentOf roots) base exit c <
        (F.tree t).program.moved (extentOf roots) base exit d := by
    intro c d hcd hd
    obtain ⟨i, hget, hpos, -, -⟩ := hbounds (Nat.lt_trans hcd hd)
    have hle : (F.tree t).program.moved (extentOf roots) base exit c + _ ≤ _ :=
      Program.moved_add_width_le hget hcd hd
    omega
  refine ⟨fun {c d} hc hd heq => ?_, fun hc => ?_, fun hc => ?_⟩
  · rcases Nat.lt_trichotomy c d with hcd | hcd | hcd
    · exact absurd heq (Nat.ne_of_lt (hlt hcd hd))
    · exact hcd
    · exact absurd heq.symm (Nat.ne_of_lt (hlt hcd hc))
  · obtain ⟨_, -, -, hlo, -⟩ := hbounds hc
    exact hlo
  · obtain ⟨_, -, -, -, hhi⟩ := hbounds hc
    exact hhi

end Delegates

end Forest

end TickTree
