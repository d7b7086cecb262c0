import Dependence.Profiling.Text
import Dependence.Proofs.JsonText
import Dependence.Proofs.ProfileSums

/-! Profiles that are written and read again. Nothing in a record is lost as long as its numbers fit
a word; a profile comes back in the order of names, so one that is in that order comes back as it
is. -/

namespace Dependence

namespace Json

theorem word?_ofNat {n : Nat} (h : n < UInt64.size) : (ofNat n).word? = some n := if_pos h

theorem optionalWord?_ofOption {n : Option Nat} (h : ∀ m ∈ n, m < UInt64.size) :
    (ofOption n).optionalWord? = some n := by
  cases n with
  | none => rfl
  | some m => exact congrArg (Option.map some) (word?_ofNat (h m rfl))

theorem items?_map {α : Type} {f : Json → Option α} {g : α → Json} {as : List α}
    (h : ∀ a ∈ as, f (g a) = some a) : (array (as.map g)).items? f = some as := by
  rw [items?]
  induction as with
  | nil => rfl
  | cons a as ih =>
    rw [List.forall_mem_cons] at h
    simp [h.1, ih h.2]

theorem items?_ofNats {ns : List Nat} (h : ∀ n ∈ ns, n < UInt64.size) :
    (ofNats ns).items? word? = some ns :=
  items?_map fun n hn => word?_ofNat (h n hn)

end Json

structure Record.Fits (r : Record) : Prop where
  entry : r.entry < UInt64.size
  successors : ∀ ns ∈ r.successors, ∀ n ∈ ns, n < UInt64.size
  postdominators : ∀ m ∈ r.postdominators, ∀ n ∈ m, n < UInt64.size
  calls : r.calls < UInt64.size
  preds : ∀ ns ∈ r.preds, ∀ n ∈ ns, n < UInt64.size

theorem Record.Fits.ofJson?_toJson {r : Record} (h : r.Fits) : ofJson? r.toJson = some r := by
  have hsuccessors := Json.items?_map fun ns hns => Json.items?_ofNats (h.successors ns hns)
  have hpostdominators :=
    Json.items?_map fun m hm => Json.optionalWord?_ofOption (h.postdominators m hm)
  have hpreds := Json.items?_map fun ns hns => Json.items?_ofNats (h.preds ns hns)
  simp [ofJson?, toJson, Json.members?, Json.text?, Json.word?_ofNat h.entry,
    Json.word?_ofNat h.calls, hsuccessors, hpostdominators, hpreds]

namespace Profile

variable {p : Profile}

theorem ofJson?_toJson (h : ∀ r ∈ p.records, r.Fits) :
    ofJson? p.toJson = some (ofRecords p.records) := by
  have hrecords := Json.items?_map fun r hr => (h r hr).ofJson?_toJson
  simp [ofJson?, toJson, Json.members?, hrecords]

theorem read_write (h : ∀ r ∈ p.records, r.Fits) : read p.write = .ok (ofRecords p.records) := by
  simp [read, write, Json.read_render, ofJson?_toJson h]

inductive Made : Profile → Prop
  | ofRecords (records : List Record) : Made (.ofRecords records)
  | ofStore (s : Store) : Made s.profile
  | absorbed {p q : Profile} (h : (p.absorb q).2 = .ok ()) : Made (p.absorb q).1

theorem Made.sorted (h : p.Made) : p.records.Pairwise fun a b => a.name ≤ b.name := by
  cases h with
  | ofRecords records => exact (ofRecords_sorts records).sorted
  | ofStore s => exact (ofRecords_sorts _).sorted
  | @absorbed p q h =>
    rcases merge_cases p q with ⟨-, sum, hmerge, hsum⟩ | ⟨-, e, hmerge⟩
    · simp only [absorb, hmerge]
      exact hsum.sorted.imp Std.le_of_lt
    · simp [absorb, hmerge] at h

/-- A profile is written as its JSON value and is read back in the order of names, so as it is if it
was made in that order. -/
theorem read_write_sorts (p : Profile) (h : ∀ r ∈ p.records, r.Fits) :
    Json.read p.write = some p.toJson ∧
    (∃ q, read p.write = .ok q ∧ q.Sorts p.records) ∧
    (p.Made → read p.write = .ok p) := by
  refine ⟨Json.read_render p.toJson, ⟨_, read_write h, ofRecords_sorts p.records⟩, fun hp => ?_⟩
  rw [read_write h, ofRecords_of_sorted hp.sorted]

/-- Two records of one name, which is hard to write, with the greatest numbers there are. -/
def twins : Profile :=
  ⟨[⟨"\"\\\n\x01é😀", 18446744073709551615, [[1, 0], []], [some 1, none], 0, [[], [0]]⟩,
    ⟨"\"\\\n\x01é😀", 0, [], [], 18446744073709551615, [[18446744073709551615]]⟩]⟩

theorem read_write_sorts_twins :
    (∀ r ∈ twins.records, r.Fits) ∧ twins.Made ∧ read twins.write = .ok twins := by
  have hfits : ∀ r ∈ twins.records, r.Fits := by
    simp only [twins, List.forall_mem_cons]
    exact ⟨⟨by decide, by decide, by decide, by decide, by decide⟩,
      ⟨by decide, by decide, by decide, by decide, by decide⟩, by simp⟩
  have hmade : twins.Made := by
    rw [← ofRecords_of_sorted (show twins.records.Pairwise _ by simp [twins])]
    exact .ofRecords twins.records
  exact ⟨hfits, hmade, (read_write_sorts twins hfits).2.2 hmade⟩

end Profile

end Dependence
