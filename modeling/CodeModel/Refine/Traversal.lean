import CodeModel.Tree.Descent
import CodeModel.Tree.Edit

/-!
# Traversals

A traversal visits everything below the root, each element before what it holds,
as it stood when the traversal began. An element made on the way is not visited,
and one that has been taken out of the tree by the time its turn comes is passed
over. The first refusal ends the traversal.

Main statement: what every visit keeps, a traversal keeps
(`run_crawlWith_keeps`).
-/

namespace CodeModel

namespace Edit

variable {σ : Type}

/-- Visits one element if it is attached. -/
def visitAttached (visit : σ → ElementId → Edit σ) (s : σ) (id : ElementId) :
    Edit σ := do
  if (← get).isAttached id then visit s id else return s

/-- Visits everything below the root, handing on a value from visit to visit. -/
def crawlWith (s : σ) (visit : σ → ElementId → Edit σ) : Edit σ := do
  let t ← get
  (t.descendants t.root).foldlM (visitAttached visit) s

/-- Visits everything below the root. -/
def crawl (visit : ElementId → Edit Unit) : Edit Unit :=
  crawlWith () fun _ id => visit id

/-- Whatever every visit keeps the fold keeps, up to the visit that fails. -/
theorem run_foldlM_keeps {P : Tree → Prop} {visit : σ → ElementId → Edit σ}
    (h : ∀ s id t, P t → P (treeOf ((visit s id).run t))) :
    ∀ (ids : List ElementId) (s : σ) (t : Tree), P t →
      P (treeOf ((ids.foldlM visit s).run t)) := by
  intro ids
  induction ids with
  | nil => intro s t hP; exact hP
  | cons id rest ih =>
      intro s t hP
      have hv := h s id t hP
      rw [List.foldlM_cons]
      show P (treeOf ((EStateM.bind (visit s id) fun s' => rest.foldlM visit s') t))
      rw [EStateM.bind]
      simp only [EStateM.run] at hv
      cases hr : visit s id t with
      | ok s' t' =>
          rw [hr] at hv
          exact ih s' t' hv
      | error e t' =>
          rw [hr] at hv
          exact hv

/-- What every visit of an attached element keeps, the traversal keeps. -/
theorem run_crawlWith_keeps {P : Tree → Prop} {visit : σ → ElementId → Edit σ}
    (h : ∀ s id t, P t → t.isAttached id = true → P (treeOf ((visit s id).run t)))
    (s : σ) {t : Tree} (hP : P t) : P (treeOf ((crawlWith s visit).run t)) := by
  refine run_foldlM_keeps ?_ (t.descendants t.root) s t hP
  intro s' id t' hP'
  show P (treeOf ((if t'.isAttached id then visit s' id else pure s' : Edit σ) t'))
  by_cases ha : t'.isAttached id = true
  · rw [if_pos ha]
    exact h s' id t' hP' ha
  · rw [if_neg ha]
    exact hP'

end Edit

end CodeModel
