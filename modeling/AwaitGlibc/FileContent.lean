import Mathlib.Data.List.Basic
import Mathlib.Tactic.Common

/-!
# Contents of a file

A file is a list of cells. Cells are read from an offset on, as far as there are any, and written
at any offset; a gap between the end and the offset is filled.
-/
namespace AwaitGlibc.FileContent

variable {α : Type}

def slice (content : List α) (pos n : ℕ) : List α := (content.drop pos).take n

def overwrite (fill : α) (content : List α) (pos : ℕ) (data : List α) : List α :=
  if data = [] then content
  else
    content.take pos ++ List.replicate (pos - content.length) fill ++ data ++
      content.drop (pos + data.length)

variable (fill : α) (content : List α) (pos n : ℕ)

/-! ### Reads -/

theorem length_slice : (slice content pos n).length = min n (content.length - pos) := by
  rw [slice, List.length_take, List.length_drop]

theorem slice_add (m : ℕ) :
    slice content pos (n + m) = slice content pos n ++ slice content (pos + n) m := by
  rw [slice, List.take_add, List.drop_drop]
  rfl

theorem slice_length : slice content pos (slice content pos n).length = slice content pos n := by
  rw [slice, List.take_eq_take_iff.mpr, ← slice]
  rw [length_slice, List.length_drop]
  omega

theorem slice_eq_nil {content : List α} {pos : ℕ} (h : content.length ≤ pos) (n : ℕ) :
    slice content pos n = [] := by
  apply List.eq_nil_of_length_eq_zero
  rw [length_slice]
  omega

theorem le_of_slice_eq_nil {content : List α} {pos n : ℕ} (h : slice content pos n = [])
    (hn : 0 < n) : content.length ≤ pos := by
  have hlen := congrArg List.length h
  rw [length_slice, List.length_nil] at hlen
  omega

theorem slice_slice {pos n first count : ℕ} (h : first + count ≤ n) :
    slice (slice content pos n) first count = slice content (pos + first) count := by
  rw [slice, slice, slice, List.drop_take, List.take_take, List.drop_drop]
  congr 1
  omega

/-! ### Writes -/

theorem overwrite_nil :
    overwrite fill content pos [] = content := if_pos rfl

theorem length_overwrite {data : List α} (hdata : data ≠ []) :
    (overwrite fill content pos data).length = max content.length (pos + data.length) := by
  rw [overwrite, if_neg hdata]
  simp only [List.length_append, List.length_take, List.length_replicate, List.length_drop]
  omega

theorem getElem?_overwrite {data : List α} (hdata : data ≠ []) (i : ℕ) :
    (overwrite fill content pos data)[i]? =
      if i < pos then some (content[i]?.getD fill)
      else if i < pos + data.length then data[i - pos]?
      else content[i]? := by
  rw [overwrite, if_neg hdata]
  have hhead : (content.take pos ++ List.replicate (pos - content.length) fill).length = pos := by
    simp only [List.length_append, List.length_take, List.length_replicate]
    omega
  split_ifs with hbefore hinside
  · grind
  · rw [List.append_assoc, List.getElem?_append_right (by omega), hhead,
      List.getElem?_append_left (by omega)]
  · rw [List.append_assoc, List.getElem?_append_right (by omega), hhead,
      List.getElem?_append_right (by omega), List.getElem?_drop]
    congr 1
    omega

theorem overwrite_append (data more : List α) :
    overwrite fill (overwrite fill content pos data) (pos + data.length) more =
      overwrite fill content pos (data ++ more) := by
  by_cases hmore : more = []
  · rw [hmore, overwrite_nil, List.append_nil]
  by_cases hdata : data = []
  · rw [hdata, overwrite_nil]
    rfl
  have hboth : data ++ more ≠ [] := by simp [hdata]
  apply List.ext_getElem?
  intro i
  rw [getElem?_overwrite _ _ _ hmore, getElem?_overwrite _ _ _ hdata,
    getElem?_overwrite _ _ _ hboth, List.length_append]
  grind

end AwaitGlibc.FileContent
