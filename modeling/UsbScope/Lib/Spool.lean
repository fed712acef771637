import UsbScope.Lib.Bytes

/-! # Sparse files

A file written at arbitrary positions: a write behind the end fills the gap
with zeros, a read past the end fails. -/
namespace UsbScope.Lib.Spool

def writeAt (file : Bytes) (pos : Nat) (data : Bytes) : Bytes :=
  file.take pos ++ List.replicate (pos - file.length) 0 ++ data ++ file.drop (pos + data.length)

def readAt (file : Bytes) (pos len : Nat) : Option Bytes :=
  if pos + len ≤ file.length then some ((file.drop pos).take len) else none

theorem length_writeAt (file : Bytes) (pos : Nat) (data : Bytes) :
    (writeAt file pos data).length = max file.length (pos + data.length) := by
  simp only [writeAt, List.length_append, List.length_take, List.length_replicate,
    List.length_drop]
  omega

/-- Inside the written range the data, elsewhere the old contents, and zero
between the old end and the write. -/
theorem getElem?_writeAt (file : Bytes) (pos : Nat) (data : Bytes) (p : Nat) :
    (writeAt file pos data)[p]? =
      if pos ≤ p ∧ p < pos + data.length then data[p - pos]?
      else if p < file.length then file[p]?
      else if p < pos then some 0 else none := by
  have hhead : (file.take pos ++ List.replicate (pos - file.length) (0 : UInt8)).length = pos := by
    simp only [List.length_append, List.length_take, List.length_replicate]
    omega
  rw [writeAt, List.append_assoc]
  by_cases hlt : p < pos
  · rw [List.getElem?_append_left (by omega), if_neg (by omega), if_pos hlt]
    by_cases hf : p < file.length
    · rw [List.getElem?_append_left (by rw [List.length_take]; omega), if_pos hf,
        List.getElem?_take, if_pos hlt]
    · rw [List.getElem?_append_right (by rw [List.length_take]; omega), if_neg hf,
        List.getElem?_replicate, if_pos (by rw [List.length_take]; omega)]
  · rw [List.getElem?_append_right (by omega), hhead]
    by_cases hd : p < pos + data.length
    · rw [List.getElem?_append_left (by omega), if_pos ⟨by omega, hd⟩]
    · rw [List.getElem?_append_right (by omega), List.getElem?_drop, if_neg (by omega),
        if_neg hlt, show pos + data.length + (p - pos - data.length) = p by omega]
      split
      · rfl
      · exact List.getElem?_eq_none (by omega)

theorem readAt_eq_some {file : Bytes} {pos len : Nat} (h : pos + len ≤ file.length) :
    readAt file pos len = some ((file.drop pos).take len) := if_pos h

end UsbScope.Lib.Spool
