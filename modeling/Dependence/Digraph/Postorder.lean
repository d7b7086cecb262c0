/-! Directed graphs as adjacency lists, and the order in which a depth-first search leaves their
nodes. An edge to a node that does not exist is ignored. -/

namespace Dependence

/-- The successors of each node; the nodes are the positions of the list. -/
abbrev Adjacency := List (List Nat)

namespace Adjacency

def successors (g : Adjacency) (u : Nat) : List Nat :=
  (g[u]?.getD []).filter (· < g.length)

/-- The nodes that have an edge to a node that exists, once for each such edge. -/
def predecessors (g : Adjacency) (v : Nat) : List Nat :=
  if v < g.length then g.zipIdx.flatMap fun (succs, u) => List.replicate (succs.count v) u else []

abbrev Frame := Nat × List Nat

def searchCost (g : Adjacency) (seen : List Nat) (v : Nat) : Nat :=
  if v ∈ seen then 0 else (g[v]?.getD []).length + 2

def searchCosts (g : Adjacency) (seen nodes : List Nat) : Nat :=
  nodes.foldr (fun v n => g.searchCost seen v + n) 0

def searchWork (g : Adjacency) (frames : List Frame) (seen : List Nat) : Nat :=
  g.searchCosts seen (List.range g.length) +
    frames.foldr (fun frame n => frame.2.length + 1 + n) 0

theorem searchWork_pop (g : Adjacency) (u : Nat) (frames : List Frame) (seen : List Nat) :
    g.searchWork frames seen < g.searchWork ((u, []) :: frames) seen := by
  simp only [searchWork, List.foldr_cons, List.length_nil]
  omega

theorem searchWork_skip (g : Adjacency) (u v : Nat) (vs : List Nat) (frames : List Frame)
    (seen : List Nat) :
    g.searchWork ((u, vs) :: frames) seen < g.searchWork ((u, v :: vs) :: frames) seen := by
  simp only [searchWork, List.foldr_cons, List.length_cons]
  omega

theorem searchCost_cons_le (g : Adjacency) (seen : List Nat) (v x : Nat) :
    g.searchCost (v :: seen) x ≤ g.searchCost seen x := by
  grind [searchCost]

theorem searchCosts_cons_le (g : Adjacency) (seen : List Nat) (v : Nat) (l : List Nat) :
    g.searchCosts (v :: seen) l ≤ g.searchCosts seen l := by
  induction l with
  | nil => exact Nat.le_refl _
  | cons x l ih => exact Nat.add_le_add (searchCost_cons_le g seen v x) ih

theorem searchCosts_cons (g : Adjacency) (seen : List Nat) (v : Nat) (l : List Nat)
    (hv : v ∉ seen) (hl : v ∈ l) :
    g.searchCosts (v :: seen) l + ((g[v]?.getD []).length + 2) ≤ g.searchCosts seen l := by
  induction l with
  | nil => simp at hl
  | cons x l ih =>
    have hcons : ∀ seen, g.searchCosts seen (x :: l) = g.searchCost seen x + g.searchCosts seen l :=
      fun _ => rfl
    rw [hcons, hcons]
    rcases List.mem_cons.mp hl with rfl | h
    · have hle := searchCosts_cons_le g seen v l
      simp only [searchCost, List.mem_cons_self, if_true, if_neg hv]
      omega
    · have hle := searchCost_cons_le g seen v x
      have := ih h
      omega

theorem searchWork_push (g : Adjacency) (u v : Nat) (vs : List Nat) (frames : List Frame)
    (seen : List Nat) (hv : v < g.length ∧ v ∉ seen) :
    g.searchWork ((v, g[v]?.getD []) :: (u, vs) :: frames) (v :: seen) <
      g.searchWork ((u, v :: vs) :: frames) seen := by
  have := searchCosts_cons g seen v (List.range g.length) hv.2 (List.mem_range.mpr hv.1)
  simp only [searchWork, List.foldr_cons, List.length_cons]
  omega

/-- Continues a depth-first search. `frames` are the nodes being searched, innermost first, `seen`
the nodes reached so far and `left` the nodes that are done, last first. -/
def search (g : Adjacency) (frames : List Frame) (seen left : List Nat) : List Nat :=
  match frames with
  | [] => left.reverse
  | (u, []) :: frames => search g frames seen (u :: left)
  | (u, v :: vs) :: frames =>
    if _h : v < g.length ∧ v ∉ seen then
      search g ((v, g[v]?.getD []) :: (u, vs) :: frames) (v :: seen) left
    else
      search g ((u, vs) :: frames) seen left
termination_by g.searchWork frames seen
decreasing_by
  · exact searchWork_pop g u frames seen
  · exact searchWork_push g u v vs frames seen ‹_›
  · exact searchWork_skip g u v vs frames seen

def postorder (g : Adjacency) (root : Nat) : List Nat :=
  g.search [(root, g[root]?.getD [])] [root] []

end Adjacency

end Dependence
