import Mathlib.Logic.Function.Basic
import TickTree.Proofs.Evaluation
import TickTree.Proofs.Sealing

/-!
# How long a walk can be

A walk leaves a trail of indices and counters in its program (`Program.Trail`). In the code of a
node whose loops are bounded no trail is longer than `Node.longest` says, wherever it begins and
whatever the counters hold there (`Node.Placed.atMost`).

In a row of nodes a trail goes forward only, so the lengths add up (`RowPlaced.atMost`). In a
counted loop it comes back to the counter after each round. No node inside the loop touches that
counter, so the rounds it has counted go up with each (`HeadPlaced.atMost_counted`). A counter that
begins past its goal wraps around at most once.
-/

namespace TickTree

variable {K A : Type}

/-! ## Trails -/

/-- How many rounds each counter has counted. -/
abbrev Rounds := Nat → UInt32

/-- One step of a walk, as far as it shows in the index and in the counters. -/
inductive Program.Step (p : Program K A) (j : Nat) (c : Rounds) : Nat → Rounds → Prop where
  | next {i : Instruction Nat K A} {k : Nat} : p.get? j = some i → ¬ i.op.IsLoop → k ∈ i.nexts →
      Step p j c k c
  | start {i : Instruction Nat K A} {counter : Nat} : p.get? j = some i →
      i.op = .repeatStart counter → Step p j c i.onSuccess (Function.update c counter 0)
  | count {i : Instruction Nat K A} {goal : UInt32} {body : Nat} : p.get? j = some i →
      i.op = .repeatCounter goal body →
      Step p j c (if c j + 1 > goal then i.onSuccess else body) (Function.update c j (c j + 1))

/-- So many steps, each from an index in the range. -/
inductive Program.Trail (p : Program K A) (lo hi : Nat) : Nat → Nat → Rounds → Nat → Rounds → Prop
  where
  | stop (j : Nat) (c : Rounds) : Trail p lo hi 0 j c j c
  | step {n j k l : Nat} {c d e : Rounds} : lo ≤ j → j < hi → p.Step j c k d →
      Trail p lo hi n k d l e → Trail p lo hi (n + 1) j c l e

section

variable {p : Program K A} {lo mid hi lo' hi' n j k : Nat} {c d : Rounds} {out : Nat → Prop}

theorem Program.Step.mem_nexts (h : p.Step j c k d) : ∃ i, p.get? j = some i ∧ k ∈ i.nexts := by
  cases h with
  | next hget _ hnext => exact ⟨_, hget, hnext⟩
  | start hget _ => exact ⟨_, hget, .head _⟩
  | @count i goal body hget hop =>
    refine ⟨i, hget, ?_⟩
    split
    · exact .head _
    · simp [Instruction.nexts, hop, Op.targets]

/-- What sets a counter to zero does that and goes on. -/
theorem Program.Step.of_start {counter yes no : Nat} (h : p.Step j c k d)
    (hget : p.get? j = some ⟨.repeatStart counter, yes, no⟩) :
    k = yes ∧ d = Function.update c counter 0 := by
  cases h with
  | next hget' hop _ =>
    rw [hget] at hget'
    cases hget'
    exact absurd trivial hop
  | start hget' hop =>
    rw [hget] at hget'
    cases hget'
    cases hop
    exact ⟨rfl, rfl⟩
  | count hget' hop =>
    rw [hget] at hget'
    cases hget'
    cases hop

/-- A counter counts, and goes on at the body until its goal is exceeded. -/
theorem Program.Step.of_counter {goal : UInt32} {body yes no : Nat} (h : p.Step j c k d)
    (hget : p.get? j = some ⟨.repeatCounter goal body, yes, no⟩) :
    k = (if c j + 1 > goal then yes else body) ∧ d = Function.update c j (c j + 1) := by
  cases h with
  | next hget' hop _ =>
    rw [hget] at hget'
    cases hget'
    exact absurd trivial hop
  | start hget' hop =>
    rw [hget] at hget'
    cases hget'
    cases hop
  | count hget' hop =>
    rw [hget] at hget'
    cases hget'
    cases hop
    exact ⟨rfl, rfl⟩

/-- A step touches no counter but the one it stands at and the one behind it. -/
theorem Program.Step.rounds (h : p.Step j c k d) (hsound : p.SoundOn lo hi) (hlo : lo ≤ j)
    (hhi : j < hi) {x : Nat} (hx : x < lo) : d x = c x := by
  cases h with
  | next => rfl
  | @start i counter hget hop =>
    have hat := hsound j i hlo hhi hget
    rw [hop] at hat
    cases hat with
    | leaf hnone _ => cases hnone
    | start => exact Function.update_of_ne (by omega) _ _
  | count => exact Function.update_of_ne (by omega) _ _

namespace Program.Trail

/-- A trail that goes anywhere begins in its range. -/
theorem begins (h : p.Trail lo hi n j c k d) : n = 0 ∨ (lo ≤ j ∧ j < hi) := by
  cases h with
  | stop => exact .inl rfl
  | step hlo hhi _ _ => exact .inr ⟨hlo, hhi⟩

theorem rounds (h : p.Trail lo hi n j c k d) (hsound : p.SoundOn lo hi) {x : Nat} (hx : x < lo) :
    d x = c x := by
  induction h with
  | stop => rfl
  | step hlo hhi hstep _ ih => exact ih.trans (hstep.rounds hsound hlo hhi hx)

/-- A trail in code leads to where the code goes on. -/
theorem leads (h : p.Trail lo hi n j c k d) (hgoes : p.GoesOn lo hi out) (hlo : lo ≤ j)
    (hhi : j < hi) : (lo ≤ k ∧ k < hi) ∨ out k := by
  induction h with
  | stop => exact .inl ⟨hlo, hhi⟩
  | step _ _ hstep hrest ih =>
    obtain ⟨i, hget, hnext⟩ := hstep.mem_nexts
    rcases hgoes _ i hlo hhi hget _ hnext with hin | hout
    · exact ih hin.1 hin.2
    · cases hrest with
      | stop => exact .inr hout
      | step hlo' hhi' hstep' hrest' => exact ih hlo' hhi'

/-- A trail stays in part of its range for a while, and goes on outside of it or stops. -/
theorem split (h : p.Trail lo hi n j c k d) (lo' hi' : Nat) : ∃ m n' l e, n = m + n' ∧
    p.Trail lo' hi' m j c l e ∧ p.Trail lo hi n' l e k d ∧ (n' = 0 ∨ ¬ (lo' ≤ l ∧ l < hi')) := by
  induction h with
  | stop j c => exact ⟨0, 0, j, c, rfl, .stop j c, .stop j c, .inl rfl⟩
  | @step n j k l c d e hlo hhi hstep hrest ih =>
    by_cases hin : lo' ≤ j ∧ j < hi'
    · obtain ⟨m, n', x, f, rfl, hfirst, hothers, hend⟩ := ih
      exact ⟨m + 1, n', x, f, by omega, .step hin.1 hin.2 hstep hfirst, hothers, hend⟩
    · exact ⟨0, n + 1, j, c, by omega, .stop j c, .step hlo hhi hstep hrest, .inr hin⟩

/-- Behind an index that it never comes back from, a trail is one in what is behind it. -/
theorem narrow (h : p.Trail lo hi n j c k d) (hgoes : p.GoesOn mid hi out)
    (hout : ∀ x, out x → ¬ (lo ≤ x ∧ x < hi)) (hj : mid ≤ j) : p.Trail mid hi n j c k d := by
  induction h with
  | stop j c => exact .stop j c
  | step hlo hhi hstep hrest ih =>
    obtain ⟨i, hget, hnext⟩ := hstep.mem_nexts
    rcases hgoes _ i hj hhi hget _ hnext with hin | hnot
    · exact .step hj hhi hstep (ih hin.1)
    · cases hrest with
      | stop => exact .step hj hhi hstep (.stop _ _)
      | step hlo' hhi' _ _ => exact absurd ⟨hlo', hhi'⟩ (hout _ hnot)

end Program.Trail

/-! ## Bounds on trails -/

/-- No trail in the range is longer. -/
def Program.AtMost (p : Program K A) (lo hi most : Nat) : Prop :=
  ∀ ⦃n j k : Nat⦄ ⦃c d : Rounds⦄, p.Trail lo hi n j c k d → n ≤ most

theorem Program.atMost_empty : p.AtMost lo lo 0 := by
  intro n j k c d h
  rcases h.begins with rfl | hin <;> omega

/-- A range whose instructions all go on outside of it is left at once. -/
theorem Program.atMost_one (h : ∀ j i, lo ≤ j → j < hi → p.get? j = some i → ∀ next ∈ i.nexts,
    ¬ (lo ≤ next ∧ next < hi)) : p.AtMost lo hi 1 := by
  intro n j k c d htrail
  cases htrail with
  | stop => omega
  | step hlo hhi hstep hrest =>
    obtain ⟨i, hget, hnext⟩ := hstep.mem_nexts
    have hnot := h _ i hlo hhi hget _ hnext
    rcases hrest.begins with rfl | hin <;> omega

/-- Code that is left for good once its second part is reached: the bounds add up. -/
theorem Program.AtMost.join {a b : Nat} (h : p.AtMost lo mid a) (h' : p.AtMost mid hi b)
    (hgoes : p.GoesOn mid hi out) (hout : ∀ x, out x → ¬ (lo ≤ x ∧ x < hi)) :
    p.AtMost lo hi (a + b) := by
  intro n j k c d htrail
  obtain ⟨m, n', l, e, rfl, hfirst, hrest, hend⟩ := htrail.split lo mid
  have hm := h hfirst
  rcases hend with rfl | hnot
  · omega
  rcases hrest.begins with rfl | hin
  · omega
  have hn' := h' (hrest.narrow hgoes hout (by omega))
  omega

end

/-! ## Rows -/

mutual

/-- How many steps a walk can make in the code of a node whose loops are bounded: through a
loop once more than it counts, since it may begin in a round, and the rounds may be past their
goal. -/
def Node.longest : Node K A → Nat
  | .mk kind children weight =>
      match kind.loop?.bind bound? with
      | some goal => (goal.toNat + 2) * (1 + longests children)
      | none => (Node.mk kind children weight).lead + longests children

/-- How many steps a walk can make in the code of nodes in a row. -/
def longests : List (Node K A) → Nat
  | [] => 0
  | node :: rest => node.longest + longests rest

end

section

variable {p : Program K A} {out : Nat → Prop} {children : List (Node K A)} {start : Nat}
  {exit : Verdict → Nat}

/-- A row that does not go on in itself is passed through once. -/
theorem RowPlaced.atMost (h : RowPlaced p out children start)
    (hout : ∀ x, out x → ¬ (start ≤ x ∧ x < start + sizes children))
    (ih : ∀ child ∈ children, ∀ {start exit}, child.Placed p start exit →
      (∀ x, Among exit x → ¬ (start ≤ x ∧ x < start + child.size)) →
      p.AtMost start (start + child.size) child.longest) :
    p.AtMost start (start + sizes children) (longests children) := by
  induction h with
  | nil start => exact Program.atMost_empty
  | @cons first rest start exit hfirst hexit hrest ihrest =>
    simp only [sizes, longests, ← Nat.add_assoc] at hout ⊢
    have hgoes := hrest.goesOn fun child _ => Node.Placed.goesOn
    refine (ih first (.head _) hfirst ?_).join
      (ihrest (fun x hx hin => hout x hx (by omega)) fun child hmem => ih child (.tail _ hmem))
      hgoes hout
    rintro x ⟨v, rfl⟩ hin
    rcases hexit v with ⟨-, hnext⟩ | hnext
    · omega
    · exact hout _ hnext (by omega)

end

/-! ## Counted loops -/

theorem toNat_add_one {n goal : UInt32} (hle : n.toNat ≤ goal.toNat) (hgoal : goal < largestCount) :
    (n + 1).toNat = n.toNat + 1 := by
  have hlt : goal.toNat < 4294967295 := UInt32.lt_iff_toNat_lt.1 hgoal
  rw [UInt32.toNat_add]
  exact Nat.mod_eq_of_lt (by simp; omega)

section

variable {p : Program K A} {count : Option UInt32} {goal : UInt32} {start hi most : Nat}
  {exit : Verdict → Nat}

/-- A trail that begins in the body of a loop ends there, or comes to the counter, which is as it
was. -/
theorem Program.AtMost.through_body (hbody : p.AtMost (start + 2) hi most)
    (hsound : p.SoundOn (start + 2) hi)
    (hgoes : p.GoesOn (start + 2) hi fun x => x = start + 1 ∨ Among exit x)
    (hexit : ∀ x, Among exit x → ¬ (start ≤ x ∧ x < hi)) {n j k : Nat} {c d : Rounds}
    (h : p.Trail start hi n j c k d) (hj : start + 2 ≤ j) :
    n ≤ most ∨ ∃ n' c', n ≤ most + n' ∧ c' (start + 1) = c (start + 1) ∧
      p.Trail start hi n' (start + 1) c' k d := by
  obtain ⟨m, n', l, e, rfl, hfirst, hrest, hend⟩ := h.split (start + 2) hi
  have hm := hbody hfirst
  by_cases hmore : n' = 0
  · exact .inl (by omega)
  have hnot : ¬ (start + 2 ≤ l ∧ l < hi) := hend.resolve_left hmore
  have hin : start ≤ l ∧ l < hi := hrest.begins.resolve_left hmore
  have hhi : j < hi := by
    rcases hfirst.begins with rfl | hin'
    · cases hfirst
      exact hin.2
    · exact hin'.2
  rcases hfirst.leads hgoes hj hhi with hin' | rfl | hx
  · exact absurd hin' hnot
  · exact .inr ⟨n', e, by omega, hfirst.rounds hsound (by omega), hrest⟩
  · exact absurd hin (hexit l hx)

/-- At its counter a loop counts a round: it is over, or goes on in its body. -/
theorem HeadPlaced.at_counter (h : HeadPlaced p count start exit)
    (hcount : bound? count = some goal) (hexit : ∀ x, Among exit x → ¬ (start ≤ x ∧ x < hi))
    {n k : Nat} {c d : Rounds}
    (htrail : p.Trail start hi n (start + 1) c k d) :
    n ≤ 1 ∨ ∃ n' c', n = n' + 1 ∧ c' (start + 1) = c (start + 1) + 1 ∧
      (c' (start + 1)).toNat ≤ goal.toNat ∧ p.Trail start hi n' (start + 2) c' k d := by
  cases htrail with
  | stop => exact .inl (by omega)
  | @step n _ l _ _ e _ hlo hhi hstep hrest =>
    obtain ⟨-, hcounter⟩ := h goal hcount
    obtain ⟨rfl, rfl⟩ := hstep.of_counter hcounter
    by_cases hover : c (start + 1) + 1 > goal
    · rw [if_pos hover] at hrest
      have hout := hexit (exit .success) ⟨.success, rfl⟩
      rcases hrest.begins with rfl | hin
      · exact .inl (Nat.le_refl 1)
      · exact absurd hin hout
    · rw [if_neg hover] at hrest
      refine .inr ⟨n, _, rfl, Function.update_self .., ?_, hrest⟩
      rw [Function.update_self]
      exact UInt32.le_iff_toNat_le.1 (UInt32.not_lt.1 hover)

/-- From its counter on, with so many rounds to go, a loop makes as many rounds. -/
theorem HeadPlaced.counted (h : HeadPlaced p count start exit) (hcount : bound? count = some goal)
    (hgoal : goal < largestCount) (hbody : p.AtMost (start + 2) hi most)
    (hsound : p.SoundOn (start + 2) hi)
    (hgoes : p.GoesOn (start + 2) hi fun x => x = start + 1 ∨ Among exit x)
    (hexit : ∀ x, Among exit x → ¬ (start ≤ x ∧ x < hi)) {rounds n k : Nat} {c d : Rounds}
    (hpassed : (c (start + 1)).toNat ≤ goal.toNat)
    (hrounds : goal.toNat ≤ (c (start + 1)).toNat + rounds)
    (htrail : p.Trail start hi n (start + 1) c k d) : n ≤ rounds * (1 + most) + 1 := by
  induction rounds generalizing n c with
  | zero =>
    rcases h.at_counter hcount hexit htrail with hone | ⟨n', c', -, hc', hle, -⟩
    · omega
    · have hnext := toNat_add_one hpassed hgoal
      rw [hc'] at hle
      omega
  | succ rounds ih =>
    rw [Nat.succ_mul]
    rcases h.at_counter hcount hexit htrail with hone | ⟨n', c', rfl, hc', hle, hrest⟩
    · omega
    · have hnext := toNat_add_one hpassed hgoal
      rcases hbody.through_body hsound hgoes hexit hrest (Nat.le_refl _) with
        hmost | ⟨n'', c'', hn', hc'', hagain⟩
      · omega
      · have hrest := ih (by rw [hc'']; exact hle) (by rw [hc'', hc']; omega) hagain
        omega

/-- The code of a counted loop is walked through at most once more than it counts, and once more
if the walk begins in it. -/
theorem HeadPlaced.atMost (h : HeadPlaced p count start exit) (hcount : bound? count = some goal)
    (hgoal : goal < largestCount) (hbody : p.AtMost (start + 2) hi most)
    (hsound : p.SoundOn (start + 2) hi)
    (hgoes : p.GoesOn (start + 2) hi fun x => x = start + 1 ∨ Among exit x)
    (hexit : ∀ x, Among exit x → ¬ (start ≤ x ∧ x < hi)) :
    p.AtMost start hi ((goal.toNat + 2) * (1 + most)) := by
  have hcounted : ∀ {n k c d}, (c (start + 1)).toNat ≤ goal.toNat →
      p.Trail start hi n (start + 1) c k d → n ≤ goal.toNat * (1 + most) + 1 :=
    fun hpassed htrail => h.counted hcount hgoal hbody hsound hgoes hexit hpassed (by omega) htrail
  -- Whatever its counter holds, after one round it is not past its goal.
  have hcounter : ∀ {n k c d}, p.Trail start hi n (start + 1) c k d →
      n ≤ (goal.toNat + 1) * (1 + most) + 1 := by
    intro n k c d htrail
    rw [Nat.succ_mul]
    rcases h.at_counter hcount hexit htrail with hone | ⟨n', c', rfl, -, hle, hrest⟩
    · omega
    · rcases hbody.through_body hsound hgoes hexit hrest (Nat.le_refl _) with
        hmost | ⟨n'', c'', hn', hc'', hagain⟩
      · omega
      · have hrest := hcounted (by rw [hc'']; exact hle) hagain
        omega
  intro n j k c d htrail
  have hrounds : (goal.toNat + 2) * (1 + most) = (goal.toNat + 1) * (1 + most) + (1 + most) :=
    Nat.succ_mul ..
  have hround : (goal.toNat + 1) * (1 + most) = goal.toNat * (1 + most) + (1 + most) :=
    Nat.succ_mul ..
  by_cases hj : start + 2 ≤ j
  · rcases hbody.through_body hsound hgoes hexit htrail hj with hmost | ⟨n', c', hn', -, hrest⟩
    · omega
    · have hlast := hcounter hrest
      omega
  by_cases hj' : j = start + 1
  · subst hj'
    have hlast := hcounter htrail
    omega
  cases htrail with
  | stop => omega
  | step hlo hhi hstep hrest =>
    obtain rfl : j = start := by omega
    obtain ⟨hstart, -⟩ := h goal hcount
    obtain ⟨rfl, rfl⟩ := hstep.of_start hstart
    have hlast := hcounted (by simp [Function.update_self]) hrest
    omega

end

/-! ## Nodes -/

/-- A loop that counts, and so far that the rounds do not wrap around. -/
def NodeKind.Bounded (kind : NodeKind K A) : Prop :=
  ∀ count, kind.loop? = some count → ∃ goal, count = some goal ∧ 0 < goal ∧ goal < largestCount

section

variable {p : Program K A} {node : Node K A} {start : Nat} {exit : Verdict → Nat}

/-- In the code of a node whose loops are bounded no trail is longer than this, if the node goes on
outside of it. -/
theorem Node.Placed.atMost (hnode : node.Every NodeKind.Bounded) (h : node.Placed p start exit)
    (hexit : ∀ x, Among exit x → ¬ (start ≤ x ∧ x < start + node.size)) :
    p.AtMost start (start + node.size) node.longest := by
  induction node using Node.induction generalizing start exit with
  | mk kind children weight ih =>
    have hlaid := h.laid
    rw [hlaid.size, ← Nat.add_assoc] at hexit ⊢
    have hgoes := hlaid.row.goesOn fun child _ => Node.Placed.goesOn
    have hrow : (∀ x, kind.Out start exit x → ¬ (start + (mk kind children weight).lead ≤ x ∧
        x < start + (mk kind children weight).lead + sizes children)) →
        p.AtMost (start + (mk kind children weight).lead)
          (start + (mk kind children weight).lead + sizes children) (longests children) :=
      fun hout => hlaid.row.atMost hout
        fun child hmem _ _ hchild hexit => ih child hmem (hnode.child hmem) hchild hexit
    cases hkind : kind.loop? with
    | none =>
      have hout : ∀ x, kind.Out start exit x →
          ¬ (start ≤ x ∧ x < start + (mk kind children weight).lead + sizes children) := by
        rintro x (⟨count, hcount, -⟩ | hx)
        · simp [hkind] at hcount
        · exact hexit x hx
      have hhead : p.AtMost start (start + (mk kind children weight).lead)
          (mk kind children weight).lead := by
        rcases Nat.le_one_iff_eq_zero_or_eq_one.1 (lead_le_one hkind children weight) with
          hlead | hlead
        · rw [hlead]
          exact Program.atMost_empty
        · rw [hlead] at hexit ⊢
          refine Program.atMost_one fun j i hlo hhi hget next hnext hin => ?_
          have hnexts := (hlaid.own hkind j i hlo (by rwa [hlead]) hget).2 next hnext
          rw [hlead] at hnexts
          rcases hnexts with hfirst | hx
          · have hbehind := mem_firsts hfirst
            omega
          · exact hexit next hx (by omega)
      have hlongest : (mk kind children weight).longest =
          (mk kind children weight).lead + longests children := by
        simp [longest, hkind]
      rw [hlongest]
      exact hhead.join (hrow fun x hx hin => hout x hx (by omega)) hgoes hout
    | some count =>
      obtain ⟨goal, rfl, hpos, hgoal⟩ := hnode.kind count hkind
      have hcount : bound? (some goal) = some goal := by simp [bound?, hpos]
      have hlead : (mk kind children weight).lead = 2 := by
        rw [lead_of_loop hkind, headSize, hcount]
      have hlongest : (mk kind children weight).longest =
          (goal.toNat + 2) * (1 + longests children) := by
        simp [longest, hkind, hcount]
      rw [hlead] at hexit hgoes hrow ⊢
      have hout : ∀ x, kind.Out start exit x → x = start + 1 ∨ Among exit x := by
        rintro x (⟨count, hcount', rfl⟩ | hx)
        · rw [hkind] at hcount'
          cases hcount'
          exact .inl (by rw [loopAgain, hcount])
        · exact .inr hx
      have hsound : p.SoundOn (start + 2) (start + 2 + sizes children) := by
        intro j i hlo hhi
        refine h.sound j i (by omega) ?_
        rw [hlaid.size, hlead]
        omega
      rw [hlongest]
      refine (hlaid.loop _ hkind).atMost hcount hgoal (hrow fun x hx hin => ?_) hsound
        (hgoes.mono fun x hx => .inr (hout x hx)) hexit
      rcases hout x hx with rfl | hx
      · omega
      · exact hexit x hx (by omega)

/-- In the program of a definition whose loops are bounded no trail is longer than this. -/
theorem Node.atMost_of_compile (h : compile node = .ok p) (hnode : node.Every NodeKind.Bounded) :
    p.AtMost 0 p.length node.longest := by
  have hlength := length_of_compile h
  rw [hlength, ← Nat.zero_add node.size]
  refine (placed_of_compile h).atMost hnode ?_
  rintro x ⟨v, rfl⟩ hin
  cases v <;> simp only [Program.ends, Program.successIndex, Program.failIndex] at hin <;> omega

end

end TickTree
