import PipelinedProcessor.Memory.MainMemory

namespace PipelinedProcessor.MainMemory

-- Whatever is asked for, the contents stay and only the tracker moves.
theorem grant_cases (memory : MainMemory) (request : Request) :
    memory.grant request = (true, { memory with pending := none }) ∨
      ∃ pending, memory.grant request = (false, { memory with pending := some pending }) := by
  simp only [grant]
  split
  · rename_i hne
    cases hp : memory.pending with
    | none => simp [hp] at hne
    | some pending => exact .inr ⟨pending, by rw [← hp]⟩
  · split
    · exact .inl rfl
    · exact .inr ⟨_, rfl⟩

-- An access waits without effect or is served as a whole.
theorem access_cases {α : Type} (memory : MainMemory) (issuer : Stage) (address : Nat)
    (serve : MainMemory → α × MainMemory) :
    (∃ pending, memory.access issuer address serve = (.wait, { memory with pending := pending })) ∨
      memory.access issuer address serve =
        (.done (serve { memory with pending := none }).1,
          (serve { memory with pending := none }).2) := by
  unfold access
  rcases grant_cases memory ⟨issuer, address⟩ with h | ⟨pending, h⟩
  · exact .inr (by rw [h])
  · exact .inl ⟨some pending, by rw [h]⟩

theorem releaseOthers_eq (memory : MainMemory) (request : Request) :
    ∃ pending, memory.releaseOthers request = { memory with pending := pending } := by
  simp only [releaseOthers]
  split
  · exact ⟨none, rfl⟩
  · exact ⟨memory.pending, rfl⟩

-- The same where an issuer gives up what it asked for before.
theorem renewed_access_cases {α : Type} (memory : MainMemory) (issuer : Stage) (address : Nat)
    (serve : MainMemory → α × MainMemory) :
    (∃ pending, (memory.releaseOthers ⟨issuer, address⟩).access issuer address serve =
        (.wait, { memory with pending := pending })) ∨
      (memory.releaseOthers ⟨issuer, address⟩).access issuer address serve =
        (.done (serve { memory with pending := none }).1,
          (serve { memory with pending := none }).2) := by
  obtain ⟨first, hfirst⟩ := memory.releaseOthers_eq ⟨issuer, address⟩
  rw [hfirst]
  exact access_cases { memory with pending := first } issuer address serve

theorem release_eq (memory : MainMemory) (issuer : Stage) :
    ∃ pending, memory.release issuer = { memory with pending := pending } := by
  unfold release
  split
  · exact ⟨none, rfl⟩
  · exact ⟨memory.pending, rfl⟩

-- Places of addresses.

theorem wrap_wrap (memory : MainMemory) (address : Nat) :
    memory.wrap (memory.wrap address) = memory.wrap address := Nat.mod_mod _ _

theorem capacity_eq (memory : MainMemory) : memory.capacity = 4 * memory.lineCount :=
  Nat.mul_comm _ _

theorem lineStart_lt (memory : MainMemory) (address : Nat) :
    memory.lineStart address < memory.capacity :=
  Nat.lt_of_le_of_lt (Nat.sub_le _ _) (memory.wrap_lt address)

theorem lineStart_eq (memory : MainMemory) (address : Nat) :
    memory.lineStart address = 4 * memory.lineIndex address := by
  simp only [lineStart, lineIndex, lineLength]
  omega

theorem wrap_lineStart (memory : MainMemory) (address : Nat) :
    memory.wrap (memory.lineStart address) = memory.lineStart address :=
  Nat.mod_eq_of_lt (memory.lineStart_lt address)

theorem lineStart_lineStart (memory : MainMemory) (address : Nat) :
    memory.lineStart (memory.lineStart address) = memory.lineStart address := by
  have h := memory.wrap_lineStart address
  have hstart : memory.lineStart (memory.lineStart address) =
      memory.wrap (memory.lineStart address) - memory.wrap (memory.lineStart address) % 4 := rfl
  rw [hstart, h, lineStart_eq]
  omega

theorem lineStart_wrap (memory : MainMemory) (address : Nat) :
    memory.lineStart (memory.wrap address) = memory.lineStart address := by
  simp only [lineStart, wrap_wrap]

theorem offset_wrap (memory : MainMemory) (address : Nat) :
    memory.offset (memory.wrap address) = memory.offset address := by
  simp only [offset, wrap_wrap]

theorem lineIndex_eq_iff (memory : MainMemory) (a b : Nat) :
    memory.lineIndex a = memory.lineIndex b ↔ memory.lineStart a = memory.lineStart b := by
  rw [lineStart_eq, lineStart_eq, Fin.ext_iff]
  omega

theorem wrap_eq_lineStart_add_offset (memory : MainMemory) (address : Nat) :
    memory.wrap address = memory.lineStart address + memory.offset address := by
  simp only [lineStart, offset, lineLength]
  omega

theorem offset_val (memory : MainMemory) (address : Nat) :
    (memory.offset address).val = address % 4 := by
  simp only [offset, wrap, capacity_eq, lineLength, Nat.mod_mul_right_mod]

theorem peekWords_congr (memory : MainMemory) {a b : Nat}
    (h : memory.lineStart a = memory.lineStart b) : memory.peekWords a = memory.peekWords b := by
  simp only [peekWords, (memory.lineIndex_eq_iff a b).mpr h]

@[simp] theorem peekWords_lineStart (memory : MainMemory) (address : Nat) :
    memory.peekWords (memory.lineStart address) = memory.peekWords address :=
  memory.peekWords_congr (memory.lineStart_lineStart address)

theorem peekWords_putLine' (memory : MainMemory) (a b : Nat) (words : Vector Word lineLength) :
    (memory.putLine a words).peekWords b =
      if memory.lineStart a = memory.lineStart b then words else memory.peekWords b := by
  rw [peekWords_putLine]
  simp only [lineIndex_eq_iff]

end PipelinedProcessor.MainMemory
