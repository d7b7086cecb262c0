import Dependence.Proofs.CallInvariants

/-! What a call records, seen from its history of events. Every region on the stack goes back to the last
time that its branch was entered, and its end has not been entered since; so no block is ever recorded to
depend on a branch whose region was closed. -/

namespace Dependence

namespace Layout

variable {l : Layout} {history : List BlockEvent} {event : BlockEvent} {r : Region} {k b : Nat}

def EntersAt (l : Layout) (history : List BlockEvent) (k b : Nat) : Prop :=
  history[k]?.bind l.entered? = some b

theorem entersAt_concat : l.EntersAt (history ++ [event]) k b ↔
    l.EntersAt history k b ∨ (k = history.length ∧ l.entered? event = some b) := by
  unfold EntersAt
  rcases Nat.lt_trichotomy k history.length with hlt | rfl | hgt
  · rw [List.getElem?_append_left hlt, or_iff_left fun h => absurd h.1 hlt.ne]
  · simp
  · have hnone : (history ++ [event])[k]? = none := List.getElem?_eq_none (by simp; omega)
    rw [hnone, List.getElem?_eq_none hgt.le]
    simp [hgt.ne']

theorem entersAt_take {j : Nat} :
    l.EntersAt (history.take j) k b ↔ k < j ∧ l.EntersAt history k b := by
  unfold EntersAt
  rw [List.getElem?_take]
  split
  · next hlt => rw [and_iff_right hlt]
  · next hge => simp [hge]

/-- The branch of a region was entered, and since then neither it nor the end of the region. -/
def Standing (l : Layout) (history : List BlockEvent) (r : Region) : Prop :=
  ∃ i, l.EntersAt history i r.branch ∧ ∀ k, i < k →
    ¬l.EntersAt history k r.branch ∧ ∀ finish, r.finish = some finish → ¬l.EntersAt history k finish

theorem Standing.concat (h : l.Standing history r) (hbranch : l.entered? event ≠ some r.branch)
    (hfinish : ∀ finish, r.finish = some finish → l.entered? event ≠ some finish) :
    l.Standing (history ++ [event]) r := by
  obtain ⟨i, hi, hsince⟩ := h
  refine ⟨i, entersAt_concat.mpr (.inl hi), fun k hk => ?_⟩
  obtain ⟨hagain, hended⟩ := hsince k hk
  simp only [entersAt_concat, not_or, not_and]
  exact ⟨⟨hagain, fun _ => hbranch⟩, fun finish hf => ⟨hended finish hf, fun _ => hfinish finish hf⟩⟩

theorem standing_of_entered (h : l.entered? event = some r.branch) :
    l.Standing (history ++ [event]) r := by
  refine ⟨history.length, entersAt_concat.mpr (.inr ⟨rfl, h⟩), fun k hk => ?_⟩
  have hnone : ∀ b, ¬l.EntersAt (history ++ [event]) k b := by
    intro b hb
    rw [EntersAt, List.getElem?_eq_none (by simp; omega)] at hb
    cases hb
  exact ⟨hnone _, fun finish _ => hnone finish⟩

theorem Standing.since_last {j : Nat} (h : l.Standing (history.take j) r) :
    (∃ i < j, l.EntersAt history i r.branch) ∧
    ∀ i < j, l.EntersAt history i r.branch →
      (∀ k, i < k → k < j → ¬l.EntersAt history k r.branch) →
      ∀ finish, r.finish = some finish → ∀ k, i < k → k < j → ¬l.EntersAt history k finish := by
  obtain ⟨i, hi, hsince⟩ := h
  simp only [entersAt_take, not_and] at hi hsince
  refine ⟨⟨i, hi⟩, fun last hlast hentered hno finish hf k hk hkj => ?_⟩
  -- the entrance that the region goes back to is the last one
  rcases Nat.lt_trichotomy last i with hlt | rfl | hgt
  · exact absurd hi.2 (hno i hlt hi.1)
  · exact (hsince k hk).2 finish hf hkj
  · exact absurd hentered ((hsince last hgt).1 hlast)

end Layout

namespace Call

variable {c : Call} {l : Layout} {history : List BlockEvent} {event : BlockEvent} {block branch : Nat}

def Remembers (c : Call) (history : List BlockEvent) : Prop :=
  ∀ r ∈ c.regions, c.layout.Standing history r

theorem finish_ne_of_mem_openAt {regions : List Region} {r : Region} (h : r ∈ openAt regions block) :
    r ∈ regions ∧ r.finish ≠ some block := by
  have hne := List.mem_takeWhile_imp h
  exact ⟨(List.takeWhile_sublist _).subset h, by simpa using hne⟩

theorem Remembers.observe (h : c.Remembers history) (hc : c.Sound) (event : BlockEvent) :
    (c.observe event).Remembers (history ++ [event]) := by
  intro r hr
  rw [(hc.observe event).2]
  rcases observe_cases hc.sized event with
    ⟨block, position, hentered, hblock, henter⟩ | ⟨regions, last, hentered, houter, heq⟩
  · obtain ⟨c', hok, -, -, hregions, -⟩ := enter_ok hc.sized hblock position
    rw [Except.ok.inj (henter.symm.trans hok), hregions] at hr
    rcases mem_reopen hr with ⟨hr, hother⟩ | ⟨-, rfl⟩
    · obtain ⟨hmem, hfinish⟩ := finish_ne_of_mem_openAt hr
      apply (h r hmem).concat
      · -- if the block is a branch at all, its older region was closed
        intro hsame
        obtain rfl := Option.some.inj (hentered.symm.trans hsame)
        exact hother (hc.region r hmem).1 rfl
      · intro finish hf hsame
        exact hfinish (hf.trans (hsame.symm.trans hentered))
    · exact Layout.standing_of_entered hentered
  · rw [heq] at hr
    apply (h r (houter.subset hr)).concat
    · simp [hentered]
    · simp [hentered]

theorem remembers_observeAll (l : Layout) (position : String) (history : List BlockEvent) :
    ((blank l position).observeAll history).Remembers history := by
  induction history using List.reverseRecOn with
  | nil =>
    intro r hr
    cases hr
  | append_singleton history event ih =>
    rw [observeAll_append]
    exact ih.observe ((sound_blank l position).observeAll history).1 event

theorem preds_observe (h : c.Sized) (hevent : c.layout.entered? event = none) :
    (c.observe event).preds = c.preds := by
  rcases observe_cases h event with ⟨block, position, hentered, -⟩ | ⟨regions, last, -, -, heq⟩
  · cases hevent.symm.trans hentered
  · rw [heq]

theorem exists_of_recorded? (h : c.recorded? block = some branch) :
    ∃ r ∈ c.regions, r.branch = branch ∧ r.finish ≠ some block := by
  obtain ⟨r, hlast, hbranch⟩ := Option.map_eq_some_iff.mp h
  obtain ⟨hr, hfinish⟩ := finish_ne_of_mem_openAt (List.mem_of_getLast? hlast)
  exact ⟨r, hr, hbranch, hfinish⟩

def timeline (position : String) (events : List BlockEvent) : List BlockEvent :=
  .enter 0 position :: events

def before (l : Layout) (position : String) (events : List BlockEvent) (j : Nat) : Call :=
  (blank l position).observeAll ((timeline position events).take j)

variable {position : String} {events : List BlockEvent} {j : Nat}

theorem sound_before (l : Layout) (position : String) (events : List BlockEvent) (j : Nat) :
    (before l position events j).Sound ∧ (before l position events j).layout = l :=
  (sound_blank l position).observeAll _

theorem before_succ (h : (timeline position events)[j]? = some event) :
    before l position events (j + 1) = (before l position events j).observe event := by
  rw [before, List.take_add_one, h, observeAll_append]
  rfl

theorem exists_standing_of_recorded? (h : (before l position events j).recorded? block = some branch) :
    ∃ finish ≠ some block, finish = l.postdominator? branch ∧
      l.Standing ((timeline position events).take j) ⟨branch, finish⟩ := by
  obtain ⟨hsound, hlayout⟩ := sound_before l position events j
  obtain ⟨r, hr, rfl, hfinish⟩ := exists_of_recorded? h
  have hstanding := remembers_observeAll l position _ r hr
  refine ⟨r.finish, hfinish, ?_, hlayout ▸ hstanding⟩
  rw [(hsound.region r hr).2, hlayout]

end Call

open Call in
/-- Whatever the events, a block depends on the branches recorded when it was entered, and coming back to
the middle of a block records nothing. A branch that is recorded was entered before, and from the last time
it was, up to and including the entrance that records it, its postdominator is not entered. -/
theorem recorded_while_region_open (l : Layout) (position : String) (events : List BlockEvent) :
    start l position = .ok (before l position events 1) ∧
    ∀ j event, (timeline position events)[j]? = some event →
      (∀ block branch, (before l position events (j + 1)).DependsOn block branch ↔
        (before l position events j).DependsOn block branch ∨
          (l.entered? event = some block ∧
            (before l position events j).recorded? block = some branch)) ∧
      (∀ block stmt position', event = .resume block (stmt + 1) position' →
        (before l position events (j + 1)).preds = (before l position events j).preds) ∧
      ∀ block branch, l.entered? event = some block →
        (before l position events j).recorded? block = some branch →
        (∃ i < j, l.EntersAt (timeline position events) i branch) ∧
        ∀ i < j, l.EntersAt (timeline position events) i branch →
          (∀ k, i < k → k < j → ¬l.EntersAt (timeline position events) k branch) →
          ∀ finish, l.postdominator? branch = some finish →
            ∀ k, i < k → k ≤ j → ¬l.EntersAt (timeline position events) k finish := by
  refine ⟨start_eq l position, fun j event hevent => ?_⟩
  obtain ⟨hsound, hlayout⟩ := sound_before l position events j
  rw [before_succ hevent]
  refine ⟨fun block branch => ?_, ?_, fun block branch hentered hrecorded => ?_⟩
  · rw [hsound.dependsOn_observe_iff, hlayout]
  · rintro block stmt position' rfl
    exact preds_observe hsound.sized rfl
  · obtain ⟨finish?, hne, hfinish?, hstanding⟩ := exists_standing_of_recorded? hrecorded
    obtain ⟨hentry, hlast⟩ := hstanding.since_last
    refine ⟨hentry, fun i hi hentered' hno finish hfinish k hk hkj => ?_⟩
    rcases hkj.lt_or_eq with hlt | rfl
    · exact hlast i hi hentered' hno finish (hfinish?.trans hfinish) k hk hlt
    · intro hended
      rw [Layout.EntersAt, hevent, Option.bind_some, hentered] at hended
      exact hne (hfinish?.trans (hfinish.trans hended.symm))

end Dependence
