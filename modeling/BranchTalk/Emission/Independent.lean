import BranchTalk.Emission.Proc

set_option autoImplicit false

/-! # Calls to independent parts of a state

A call may be addressed to one part of the state: it reads and changes no other. What a part comes to,
and what the calls to it answer, then depends on those calls alone, so only the order among the calls
to the same part matters. A call that is addressed to no part changes nothing. -/

namespace Emission

variable {σ Sig R Op τ : Type}

/-- The calls with their answers, one after another, with handlers that only read. -/
def transcript (exec : Op → Method σ Sig R) (s : σ) : List Op → List (Op × R)
  | [] => []
  | op :: rest =>
      (op, ((exec op).run s).quiet.result) :: transcript exec ((exec op).run s).quiet.state rest

section

variable [DecidableEq τ]

/-- The calls that are addressed to a part, in order. -/
def callsTo (target : Op → Option τ) (t : τ) (ops : List Op) : List Op :=
  ops.filter fun op => target op = some t

/-- The calls to a part with their answers. -/
def answersTo (target : Op → Option τ) (t : τ) (calls : List (Op × R)) : List (Op × R) :=
  calls.filter fun call => target call.1 = some t

/-- Two sequences of calls end alike: in the same state, with the same answers from every part. -/
structure EndsAlike (exec : Op → Method σ Sig R) (target : Op → Option τ) (s : σ)
    (ops ops' : List Op) : Prop where
  state : sequence exec s ops = sequence exec s ops'
  answers : ∀ t, answersTo target t (transcript exec s ops) =
    answersTo target t (transcript exec s ops')

end

/-- While the invariant holds, the state is made up of its parts, and a call reads and changes no part
    but the one it is addressed to. -/
structure Parts (exec : Op → Method σ Sig R) (I : σ → Prop) (target : Op → Option τ)
    {V : τ → Type} (part : (t : τ) → σ → V t) : Prop where
  keeps : ∀ s op, I s → I ((exec op).run s).quiet.state
  frame : ∀ s op t, I s → target op ≠ some t →
    part t ((exec op).run s).quiet.state = part t s
  reads : ∀ s s' op t, I s → I s' → target op = some t → part t s = part t s' →
    part t ((exec op).run s).quiet.state = part t ((exec op).run s').quiet.state ∧
    ((exec op).run s).quiet.result = ((exec op).run s').quiet.result
  whole : ∀ s s', I s → I s' → (∀ t, part t s = part t s') → s = s'

variable [DecidableEq τ] {exec : Op → Method σ Sig R} {I : σ → Prop} {target : Op → Option τ}
  {V : τ → Type} {part : (t : τ) → σ → V t}

/-- **A part depends on the calls to it alone**: the other calls can be left out. -/
theorem Parts.project (h : Parts exec I target part) (t : τ) (ops : List Op) {s s' : σ} (hs : I s)
    (hs' : I s') (hpart : part t s = part t s') :
    part t (sequence exec s ops) = part t (sequence exec s' (callsTo target t ops)) ∧
    answersTo target t (transcript exec s ops) = transcript exec s' (callsTo target t ops) := by
  induction ops generalizing s s' with
  | nil => exact ⟨hpart, rfl⟩
  | cons op rest ih =>
      by_cases hop : target op = some t
      · obtain ⟨hafter, hanswer⟩ := h.reads s s' op t hs hs' hop hpart
        obtain ⟨hstate, hanswers⟩ := ih (h.keeps s op hs) (h.keeps s' op hs') hafter
        rw [callsTo, List.filter_cons_of_pos (by simpa using hop)]
        refine ⟨hstate, ?_⟩
        rw [transcript, transcript, answersTo, List.filter_cons_of_pos (by simpa using hop), hanswer]
        exact congrArg _ hanswers
      · obtain ⟨hstate, hanswers⟩ :=
          ih (h.keeps s op hs) hs' ((h.frame s op t hs hop).trans hpart)
        rw [callsTo, List.filter_cons_of_neg (by simpa using hop)]
        refine ⟨hstate, ?_⟩
        rw [transcript, answersTo, List.filter_cons_of_neg (by simpa using hop)]
        exact hanswers

/-- **Only the order among calls to the same part matters.** -/
theorem Parts.endsAlike (h : Parts exec I target part) {s : σ} (hs : I s) {ops ops' : List Op}
    (hcalls : ∀ t, callsTo target t ops = callsTo target t ops') :
    EndsAlike exec target s ops ops' := by
  have hsame := fun t => h.project t ops hs hs rfl
  have hsame' := fun t => h.project t ops' hs hs rfl
  refine ⟨h.whole _ _ ?_ ?_ fun t => ?_, fun t => ?_⟩
  · exact sequence_invariant h.keeps hs ops
  · exact sequence_invariant h.keeps hs ops'
  · rw [(hsame t).1, (hsame' t).1, hcalls t]
  · rw [(hsame t).2, (hsame' t).2, hcalls t]

/-- Every answer is given in a state that the calls before have left. -/
theorem exists_of_mem_transcript {I : σ → Prop}
    (hkeeps : ∀ s op, I s → I ((exec op).run s).quiet.state) {s : σ} (hs : I s) {ops : List Op}
    {call : Op × R} (h : call ∈ transcript exec s ops) :
    ∃ s', I s' ∧ call.2 = ((exec call.1).run s').quiet.result := by
  induction ops generalizing s with
  | nil => cases h
  | cons op rest ih =>
      rcases List.mem_cons.mp h with rfl | h
      · exact ⟨s, hs, rfl⟩
      · exact ih (hkeeps s op hs) h

/-- Two kinds of calls that have no part in common may be interleaved at will. -/
theorem callsTo_eq_of_interleaved {kind : Op → Bool} {kindOf : τ → Bool}
    (hkind : ∀ op t, target op = some t → kind op = kindOf t) {ops ops' : List Op}
    (hfirst : ops.filter kind = ops'.filter kind)
    (hsecond : (ops.filter fun op => !kind op) = ops'.filter fun op => !kind op) (t : τ) :
    callsTo target t ops = callsTo target t ops' := by
  have hsplit : ∀ ops : List Op, callsTo target t ops =
      callsTo target t (ops.filter fun op => kind op == kindOf t) := by
    intro ops
    rw [callsTo, callsTo, List.filter_filter]
    refine List.filter_congr fun op _ => ?_
    by_cases hop : target op = some t
    · simp [hop, hkind op t hop]
    · simp [hop]
  rw [hsplit ops, hsplit ops']
  cases kindOf t with
  | true => simpa using congrArg (callsTo target t) hfirst
  | false => simpa using congrArg (callsTo target t) hsecond

end Emission
