import Mathlib.Data.List.Basic
import Dependence.Flow.Graph

/-! The check of a graph. A block lists the edges that leave it and those that come into it, so every edge
should be listed at both of its ends. The check goes through all that is listed, one block after the other,
and looks for the other end. It finds nothing wrong exactly if any two blocks agree on the edges between
them, and otherwise reports the first end that has no counterpart. -/

namespace Dependence.Graph

inductive EdgeEnd where
  | next (block succ : Nat)
  | prev (block pred : Nat)

variable {name : String} {blocks : List Block} {b c p : Nat} {e : EdgeEnd}

namespace EdgeEnd

def Matched (blocks : List Block) : EdgeEnd → Prop
  | next b c => ∃ target, blocks[c]? = some target ∧ b ∈ target.prev
  | prev b p => ∃ source, blocks[p]? = some source ∧ b ∈ source.next

def report (name : String) (blocks : List Block) : EdgeEnd → Defect
  | next b c =>
    if c < blocks.length then .missingPredecessor name b c
    else .unknownSuccessor name b c blocks.length
  | prev b p =>
    if p < blocks.length then .missingSuccessor name p b
    else .unknownPredecessor name b p blocks.length

def defect? (name : String) (blocks : List Block) : EdgeEnd → Option Defect
  | next b c => successorDefect? name blocks b c
  | prev b p => predecessorDefect? name blocks b p

theorem defect?_of_matched (h : e.Matched blocks) : e.defect? name blocks = none := by
  cases e with
  | next b c =>
    obtain ⟨target, htarget, hb⟩ := h
    simp [defect?, successorDefect?, htarget, hb]
  | prev b p =>
    obtain ⟨source, hsource, hb⟩ := h
    simp [defect?, predecessorDefect?, hsource, hb]

theorem defect?_of_not_matched (h : ¬e.Matched blocks) :
    e.defect? name blocks = some (e.report name blocks) := by
  cases e with
  | next b c =>
    cases hc : blocks[c]? with
    | none =>
      have hle : ¬c < blocks.length := Nat.not_lt.mpr (List.getElem?_eq_none_iff.mp hc)
      simp only [defect?, successorDefect?, report, hc, if_neg hle]
    | some target =>
      have hlt : c < blocks.length := (List.getElem?_eq_some_iff.mp hc).1
      have hb : b ∉ target.prev := fun hb => h ⟨target, hc, hb⟩
      simp only [defect?, successorDefect?, report, hc, if_neg hb, if_pos hlt]
  | prev b p =>
    cases hp : blocks[p]? with
    | none =>
      have hle : ¬p < blocks.length := Nat.not_lt.mpr (List.getElem?_eq_none_iff.mp hp)
      simp only [defect?, predecessorDefect?, report, hp, if_neg hle]
    | some source =>
      have hlt : p < blocks.length := (List.getElem?_eq_some_iff.mp hp).1
      have hb : b ∉ source.next := fun hb => h ⟨source, hp, hb⟩
      simp only [defect?, predecessorDefect?, report, hp, if_neg hb, if_pos hlt]

theorem defect?_eq_none_iff : e.defect? name blocks = none ↔ e.Matched blocks := by
  refine ⟨fun h => ?_, defect?_of_matched⟩
  by_contra hunmatched
  rw [defect?_of_not_matched hunmatched] at h
  cases h

theorem defect?_eq_some_iff {defect : Defect} :
    e.defect? name blocks = some defect ↔ ¬e.Matched blocks ∧ defect = e.report name blocks := by
  by_cases h : e.Matched blocks
  · simp [defect?_of_matched h, h]
  · simp [defect?_of_not_matched h, h, eq_comm]

end EdgeEnd

def ends (blocks : List Block) : List EdgeEnd :=
  blocks.zipIdx.flatMap fun (block, b) => block.next.map (.next b) ++ block.prev.map (.prev b)

theorem next_mem_ends :
    .next b c ∈ ends blocks ↔ ∃ block, blocks[b]? = some block ∧ c ∈ block.next := by
  simp [ends, List.mem_zipIdx_iff_getElem?]

theorem prev_mem_ends :
    .prev b p ∈ ends blocks ↔ ∃ block, blocks[b]? = some block ∧ p ∈ block.prev := by
  simp [ends, List.mem_zipIdx_iff_getElem?]

/-- The two loops inside the loop over the blocks are one search through all ends. -/
theorem defect?_eq_findSome? (name : String) (blocks : List Block) :
    defect? name blocks = (ends blocks).findSome? (EdgeEnd.defect? name blocks) := by
  unfold defect? ends
  induction blocks.zipIdx with
  | nil => rfl
  | cons x rest ih =>
    rw [List.flatMap_cons, List.findSome?_append, ← ih, List.findSome?_append, List.findSome?_map,
      List.findSome?_map, ← List.singleton_append, List.findSome?_append, List.findSome?_singleton]
    rfl

structure EdgesAgree (blocks : List Block) : Prop where
  next_lt : ∀ {b c : Nat} {block : Block}, blocks[b]? = some block → c ∈ block.next →
    c < blocks.length
  prev_lt : ∀ {b p : Nat} {block : Block}, blocks[b]? = some block → p ∈ block.prev →
    p < blocks.length
  agree : ∀ {b c : Nat} {source target : Block}, blocks[b]? = some source → blocks[c]? = some target →
    (c ∈ source.next ↔ b ∈ target.prev)

theorem edgesAgree_iff_matched : EdgesAgree blocks ↔ ∀ e ∈ ends blocks, e.Matched blocks := by
  constructor
  · intro h e he
    cases e with
    | next b c =>
      obtain ⟨block, hblock, hc⟩ := next_mem_ends.mp he
      have htarget := List.getElem?_eq_getElem (h.next_lt hblock hc)
      exact ⟨_, htarget, (h.agree hblock htarget).mp hc⟩
    | prev b p =>
      obtain ⟨block, hblock, hp⟩ := prev_mem_ends.mp he
      have hsource := List.getElem?_eq_getElem (h.prev_lt hblock hp)
      exact ⟨_, hsource, (h.agree hsource hblock).mpr hp⟩
  · intro h
    have hnext {b c : Nat} {block : Block} (hblock : blocks[b]? = some block) (hc : c ∈ block.next) :=
      h (.next b c) (next_mem_ends.mpr ⟨block, hblock, hc⟩)
    have hprev {b p : Nat} {block : Block} (hblock : blocks[b]? = some block) (hp : p ∈ block.prev) :=
      h (.prev b p) (prev_mem_ends.mpr ⟨block, hblock, hp⟩)
    refine ⟨fun hblock hc => ?_, fun hblock hp => ?_, fun {b c source target} hs ht => ⟨?_, ?_⟩⟩
    · obtain ⟨target, htarget, -⟩ := hnext hblock hc
      exact (List.getElem?_eq_some_iff.mp htarget).1
    · obtain ⟨source, hsource, -⟩ := hprev hblock hp
      exact (List.getElem?_eq_some_iff.mp hsource).1
    · intro hc
      obtain ⟨target', htarget, hb⟩ := hnext hs hc
      rwa [Option.some.inj (ht.symm.trans htarget)]
    · intro hb
      obtain ⟨source', hsource, hc⟩ := hprev ht hb
      rwa [Option.some.inj (hs.symm.trans hsource)]

theorem defect?_eq_none_iff : defect? name blocks = none ↔ EdgesAgree blocks := by
  simp only [defect?_eq_findSome?, List.findSome?_eq_none_iff, EdgeEnd.defect?_eq_none_iff,
    edgesAgree_iff_matched]

theorem defect?_eq_some_iff {defect : Defect} :
    defect? name blocks = some defect ↔ ∃ before e after, ends blocks = before ++ e :: after ∧
      (¬e.Matched blocks ∧ defect = e.report name blocks) ∧ ∀ x ∈ before, x.Matched blocks := by
  simp only [defect?_eq_findSome?, List.findSome?_eq_some_iff, EdgeEnd.defect?_eq_none_iff,
    EdgeEnd.defect?_eq_some_iff]

theorem ofBlocks_eq_ok_iff {signature : Signature} {g : Graph} :
    ofBlocks name signature blocks = .ok g ↔
      defect? name blocks = none ∧ g = ⟨name, signature, blocks⟩ := by
  unfold ofBlocks
  cases defect? name blocks <;> simp [eq_comm]

theorem ofBlocks_eq_error_iff {signature : Signature} {error : Error} :
    ofBlocks name signature blocks = .error error ↔
      ∃ defect, defect? name blocks = some defect ∧ error = .malformed defect := by
  unfold ofBlocks
  cases defect? name blocks <;> simp [eq_comm]

/-- A graph is made exactly of blocks that agree on their edges, and keeps them as they are. Otherwise the
first end of an edge without a counterpart is reported. -/
theorem ofBlocks_accepts_agreeing (name : String) (signature : Signature) (blocks : List Block) :
    (∀ g, ofBlocks name signature blocks = .ok g ↔
      EdgesAgree blocks ∧ g = ⟨name, signature, blocks⟩) ∧
    ∀ error, ofBlocks name signature blocks = .error error ↔
      ∃ before e after, ends blocks = before ++ e :: after ∧ (∀ x ∈ before, x.Matched blocks) ∧
        ¬e.Matched blocks ∧ error = .malformed (e.report name blocks) := by
  refine ⟨fun g => ?_, fun error => ?_⟩
  · rw [ofBlocks_eq_ok_iff, defect?_eq_none_iff]
  · rw [ofBlocks_eq_error_iff]
    constructor
    · rintro ⟨defect, hdefect, rfl⟩
      obtain ⟨before, e, after, hends, ⟨he, rfl⟩, hbefore⟩ := defect?_eq_some_iff.mp hdefect
      exact ⟨before, e, after, hends, hbefore, he, rfl⟩
    · rintro ⟨before, e, after, hends, hbefore, he, rfl⟩
      exact ⟨_, defect?_eq_some_iff.mpr ⟨before, e, after, hends, ⟨he, rfl⟩, hbefore⟩, rfl⟩

example : (ofBlocks "loop" ⟨[], [], []⟩ [⟨[], [0], [0, 1, 1]⟩, ⟨[], [0], []⟩]).isOk = true ∧
    ofBlocks "gap" ⟨[], [], []⟩ [⟨[], [0, 2], [0]⟩, ⟨[], [], [0]⟩] =
      .error (.malformed (.unknownPredecessor "gap" 0 2 2)) := by
  exact ⟨rfl, rfl⟩

end Dependence.Graph
