import OSLabs.Pstree.Layout

/-! # PrintTree and the renderer with a prefix

The reference renderer hands the prefix of a line down the tree, while `PrintTree` finds
it again for every line by climbing to the root. On every tree both print the same.
-/

namespace OSLabs.Pstree

open Lib

variable {h : Heap} {rootPID : Int} {a : Nat} {F : Forest Nat}

mutual

/-- What the renderer prints behind the name of a node for its sons: nothing, one son on
the same line, or the first one of several. The prefix `q` reaches up to the end of that
name. -/
def renderSons (q : List Char) : Forest (List Char) → List Char
  | .nil => []
  | .cons name sons .nil =>
    ['─', '─', '─'] ++ (name ++ renderSons (q ++ [' ', ' ', ' '] ++ spaces name.length) sons)
  | .cons name sons (.cons name' sons' siblings) =>
    ['─', '┬', '─'] ++ (name ++ renderSons (q ++ [' ', '│', ' '] ++ spaces name.length) sons) ++
      renderLater q (.cons name' sons' siblings)

/-- What it prints for the sons after the first one, each on a new line; the branch and
the bar below it tell the last one. -/
def renderLater (q : List Char) : Forest (List Char) → List Char
  | .nil => []
  | .cons name sons .nil =>
    '\n' :: q ++ [' ', '└', '─'] ++
      (name ++ renderSons (q ++ [' ', ' ', ' '] ++ spaces name.length) sons)
  | .cons name sons (.cons name' sons' siblings) =>
    '\n' :: q ++ [' ', '├', '─'] ++
      (name ++ renderSons (q ++ [' ', '│', ' '] ++ spaces name.length) sons) ++
      renderLater q (.cons name' sons' siblings)

end

/-- `R(n, p)` for the node `n` with this name and these sons; in the functions above it
stands in brackets, with the prefix that its case says. -/
def render (name : List Char) (sons : Forest (List Char)) (p : List Char) : List Char :=
  name ++ renderSons (p ++ spaces name.length) sons

/-! ## The drawing is what the renderer prints -/

/-- The drawing of the sons, from the first or from a later one on. -/
theorem draw_eq_render (q : List Char) (F : Forest (List Char)) :
    draw true q F = renderSons q F ∧ draw false q F = renderLater q F := by
  induction F generalizing q with
  | nil => exact ⟨rfl, rfl⟩
  | cons name sons siblings ihs ih =>
      have hsons := (ihs (q ++ bar siblings ++ spaces name.length)).1
      have hsibs := (ih q).2
      cases siblings with
      | nil =>
          constructor
          · rw [draw, hsons, draw, renderSons, List.append_nil, List.append_assoc]
            rfl
          · rw [draw, hsons, draw, renderLater, List.append_nil, List.append_assoc]
            rfl
      | cons name' sons' siblings =>
          constructor
          · rw [draw, hsons, hsibs, renderSons, List.append_assoc _ name]
            rfl
          · rw [draw, hsons, hsibs, renderLater, List.append_assoc _ name]
            rfl

theorem drawTree_eq_render (name : List Char) (F : Forest (List Char)) :
    drawTree name F = render name F [] := by
  rw [drawTree, (draw_eq_render _ F).1, render, List.nil_append]

/-- On every tree `PrintTree` returns and prints what the renderer prints. -/
theorem printTree_renders (tree : TreeAt h rootPID a F) :
    Prints h rootPID a (render (h.node a).name.text (h.labels (fun n => n.name.text) F) []) := by
  rw [tree.prints_iff, drawTree_eq_render]

theorem printTree_renders_pairHeap :
    Prints (pairHeap 1 2) 1 0
      (['a'] ++ ['─', '┬', '─', 'b', 'c', '\n', ' ', ' ', '└', '─', 'd']) := by
  have tree : TreeAt (pairHeap 1 2) 1 0 (.cons 1 .nil (.cons 2 .nil .nil)) :=
    ⟨rfl, ⟨rfl, rfl, rfl, rfl, rfl, rfl, rfl⟩, by decide⟩
  exact printTree_renders tree

end OSLabs.Pstree
