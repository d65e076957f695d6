/-
# Forests of linked nodes

A node has links to its parent, its first child and its next sibling. `Links node parent o f` says that the forest `f`
begins at `o`, its trees being children of `parent`. `Visits next o l` is a search: from `o` on, `next` gives the
elements `l` and then NULL. A search that ends comes by no element twice (`Visits.nodup`).
-/
import RouterFirmware.Lib.Linked

variable {α : Type*}

/-- The first tree, as its root and the forest below it, and the other trees. -/
inductive Forest (α : Type*) where
  | nil
  | cons (root : α) (below rest : Forest α)

namespace Forest

/-- The nodes, each before those below it. -/
def preorder : Forest α → List α
  | nil => []
  | cons root below rest => root :: (preorder below ++ preorder rest)

def height : Forest α → ℕ
  | nil => 0
  | cons _ below rest => max (height below + 1) (height rest)

theorem height_le : ∀ f : Forest α, f.height ≤ f.preorder.length
  | nil => le_rfl
  | cons root below rest => by
    have hbelow := height_le below
    have hrest := height_le rest
    simp only [height, preorder, List.length_cons, List.length_append]
    omega

/-- The links of a node. -/
structure Node (α : Type*) where
  parent : Option α
  child : Option α
  next : Option α

/-- The forest that begins at a link, below `parent`. -/
def Links (node : α → Node α) (parent : Option α) : Option α → Forest α → Prop
  | o, nil => o = none
  | o, cons root below rest => o = some root ∧ (node root).parent = parent ∧
      Links node (some root) (node root).child below ∧ Links node parent (node root).next rest

theorem Links.congr {node node' : α → Node α} : ∀ {f : Forest α} {parent o : Option α}, Links node parent o f →
    (∀ a ∈ f.preorder, node' a = node a) → Links node' parent o f
  | nil, _, _, h, _ => h
  | cons root below rest, _, _, ⟨ho, hparent, hbelow, hrest⟩, heq => by
    have hroot := heq root List.mem_cons_self
    refine ⟨ho, by rw [hroot, hparent], ?_, ?_⟩
    · rw [hroot]
      exact hbelow.congr fun a ha => heq a (List.mem_cons_of_mem _ (List.mem_append_left _ ha))
    · rw [hroot]
      exact hrest.congr fun a ha => heq a (List.mem_cons_of_mem _ (List.mem_append_right _ ha))

/-- A search gives the elements and then NULL. It can fail to give anything. -/
def Visits (next : Option α → Option (Option α)) : Option α → List α → Prop
  | o, [] => next o = some none
  | o, a :: l => next o = some (some a) ∧ Visits next (some a) l

/-- A search follows links. -/
theorem Visits.linked {next : Option α → Option (Option α)} : ∀ {l : List α} {o : Option α}, Visits next o l →
    Linked (fun a => (next (some a)).getD none) ((next o).getD none) l
  | [], o, h => by
    show (next o).getD none = none
    rw [show next o = some none from h, Option.getD_some]
  | a :: l, o, ⟨h, hl⟩ => ⟨by rw [h, Option.getD_some], hl.linked⟩

theorem Visits.nodup {next : Option α → Option (Option α)} {l : List α} {o : Option α} (h : Visits next o l) :
    l.Nodup := h.linked.nodup

end Forest
