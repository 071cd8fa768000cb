import PipelinedProcessor.Proofs.Cache.Flushing

namespace PipelinedProcessor

-- What a program may rely on in a memory. It is seen as one word at every address; what is asked
-- of it is either done at once and as a whole or waits and changes nothing that can be seen.
class LawfulStorage (σ : Type) [Storage σ] where
  Sound : σ → Prop
  capacity : σ → Nat
  view : σ → MemoryView
  read_sound : ∀ {s s' : σ} {issuer : Stage} {address : Nat} {answer : Poll Word}, Sound s →
    Storage.read s issuer address = (answer, s') →
    Sound s' ∧ capacity s' = capacity s ∧ view s' = view s ∧ ∀ w, answer = .done w →
    w = view s address
  store_sound :
    ∀ {s s' : σ} {issuer : Stage} {address : Nat} {w : Word} {answer : Poll Unit}, Sound s →
    Storage.store s issuer address w = (answer, s') →
    Sound s' ∧ capacity s' = capacity s ∧ view s' = match answer with
      | .wait => view s
      | .done _ => (view s).put (capacity s) address w
  -- a partial write writes one word at least, and no more than it was given
  writePartial_sound :
    ∀ {s s' : σ} {issuer : Stage} {address : Nat} {data : List Word} {answer : Poll Nat},
    Sound s → Storage.writePartial s issuer address data = (answer, s') →
    Sound s' ∧ capacity s' = capacity s ∧ (view s' = match answer with
      | .wait => view s
      | .done n => (view s).putAll (capacity s) address (data.take n)) ∧
    ∀ n, answer = .done n → n ≤ data.length ∧ (0 < data.length → 0 < n)

theorem fitting_bounds (memory : MainMemory) (address : Nat) (data : List Word) :
    fitting (memory.offset address) data ≤ data.length ∧
      (0 < data.length → 0 < fitting (memory.offset address) data) := by
  have hlt := (memory.offset address).isLt
  simp only [fitting, lineLength] at hlt ⊢
  omega

-- Main memory alone.

namespace MainMemory

variable {memory after : MainMemory} {issuer : Stage} {address : Nat}

theorem read_spec {answer : Poll Word} (hresult : memory.read issuer address = (answer, after)) :
    after.lineCount = memory.lineCount ∧ after.peek = memory.peek ∧
      ∀ w, answer = .done w → w = memory.peek address := by
  unfold read at hresult
  rcases memory.access_cases issuer address (fun memory => (memory.peek address, memory)) with
    ⟨pending, ha⟩ | ha
  · rw [ha] at hresult
    obtain ⟨rfl, rfl⟩ := Prod.mk.inj hresult
    exact ⟨rfl, rfl, nofun⟩
  · rw [ha] at hresult
    obtain ⟨rfl, rfl⟩ := Prod.mk.inj hresult
    refine ⟨rfl, rfl, ?_⟩
    intro w hw
    exact (Poll.done.inj hw).symm

theorem peek_putLine_patch (memory : MainMemory) (address : Nat) (data : List Word) :
    (memory.putLine address (patch (memory.peekWords address) (memory.offset address) data)).peek =
      MemoryView.putAll memory.capacity memory.peek address
        (data.take (fitting (memory.offset address) data)) := by
  rw [← wordsOf_peekWords memory, ← wordsOf_patch]
  funext other
  show ((memory.putLine address _).peekWords other).get (memory.offset other) = _
  rw [peekWords_putLine', wordsOf]
  by_cases hline : memory.lineStart other = memory.lineStart address
  · rw [if_pos hline.symm, if_pos hline, memory.peekWords_congr hline]
  · rw [if_neg (Ne.symm hline), if_neg hline]

theorem writePartial_spec {data : List Word} {answer : Poll Nat}
    (hresult : memory.writePartial issuer address data = (answer, after)) :
    after.lineCount = memory.lineCount ∧ ((answer = .wait ∧ after.peek = memory.peek) ∨
      answer = .done (fitting (memory.offset address) data) ∧
        after.peek = MemoryView.putAll memory.capacity memory.peek address
          (data.take (fitting (memory.offset address) data))) := by
  unfold writePartial at hresult
  rcases memory.access_cases issuer address (fun memory =>
      (fitting (memory.offset address) data,
        memory.putLine address (patch (memory.peekWords address) (memory.offset address) data)))
        with
    ⟨pending, ha⟩ | ha
  · rw [ha] at hresult
    obtain ⟨rfl, rfl⟩ := Prod.mk.inj hresult
    exact ⟨rfl, .inl ⟨rfl, rfl⟩⟩
  · rw [ha] at hresult
    obtain ⟨rfl, rfl⟩ := Prod.mk.inj hresult
    exact ⟨rfl, .inr ⟨rfl, memory.peek_putLine_patch address data⟩⟩

theorem peek_put_eq (memory : MainMemory) (address : Nat) (w : Word) :
    (memory.put address w).peek = MemoryView.put memory.capacity memory.peek address w := by
  funext other
  rw [peek_put]
  by_cases h : memory.wrap address = memory.wrap other
  · rw [if_pos h]
    exact (if_pos h.symm).symm
  · rw [if_neg h]
    exact (if_neg (Ne.symm h)).symm

theorem write_spec {w : Word} {answer : Poll Unit}
    (hresult : memory.write issuer address w = (answer, after)) :
    after.lineCount = memory.lineCount ∧ ((answer = .wait ∧ after.peek = memory.peek) ∨
      answer = .done () ∧ after.peek = MemoryView.put memory.capacity memory.peek address w) := by
  unfold write at hresult
  rcases memory.access_cases issuer address (fun memory => ((), memory.put address w)) with
    ⟨pending, ha⟩ | ha
  · rw [ha] at hresult
    obtain ⟨rfl, rfl⟩ := Prod.mk.inj hresult
    exact ⟨rfl, .inl ⟨rfl, rfl⟩⟩
  · rw [ha] at hresult
    obtain ⟨rfl, rfl⟩ := Prod.mk.inj hresult
    exact ⟨rfl, .inr ⟨rfl, memory.peek_put_eq address w⟩⟩

theorem capacity_congr {memory other : MainMemory} (h : other.lineCount = memory.lineCount) :
    other.capacity = memory.capacity := by
  simp only [capacity, h]

end MainMemory

instance : LawfulStorage MainMemory where
  Sound _ := True
  capacity := MainMemory.capacity
  view := MainMemory.peek
  read_sound _ hresult := by
    obtain ⟨hcount, hview, hanswer⟩ := MainMemory.read_spec hresult
    exact ⟨trivial, MainMemory.capacity_congr hcount, hview, hanswer⟩
  store_sound _ hresult := by
    obtain ⟨hcount, ⟨rfl, hview⟩ | ⟨rfl, hview⟩⟩ := MainMemory.write_spec hresult
    · exact ⟨trivial, MainMemory.capacity_congr hcount, hview⟩
    · exact ⟨trivial, MainMemory.capacity_congr hcount, hview⟩
  writePartial_sound _ hresult := by
    obtain ⟨hcount, ⟨rfl, hview⟩ | ⟨rfl, hview⟩⟩ := MainMemory.writePartial_spec hresult
    · exact ⟨trivial, MainMemory.capacity_congr hcount, hview, nofun⟩
    · refine ⟨trivial, MainMemory.capacity_congr hcount, hview, ?_⟩
      intro n hn
      obtain rfl := Poll.done.inj hn
      exact fitting_bounds _ _ _

-- The cache with the memory behind it.
instance : LawfulStorage Cache where
  Sound := Cache.Coherent
  capacity cache := cache.memory.capacity
  view := Cache.view
  read_sound h hresult := by
    obtain ⟨hpresents, hanswer⟩ := Cache.read_spec h hresult
    exact ⟨hpresents.coherent, MainMemory.capacity_congr hpresents.lineCount_eq,
      hpresents.view_eq, hanswer⟩
  store_sound h hresult := by
    rcases Cache.store_spec h hresult with ⟨rfl, hpresents⟩ | ⟨rfl, hpresents⟩
    · exact ⟨hpresents.coherent, MainMemory.capacity_congr hpresents.lineCount_eq,
        hpresents.view_eq⟩
    · exact ⟨hpresents.coherent, MainMemory.capacity_congr hpresents.lineCount_eq,
        hpresents.view_eq⟩
  writePartial_sound h hresult := by
    rcases Cache.writePartial_spec h hresult with ⟨rfl, hpresents⟩ | ⟨rfl, hpresents⟩
    · exact ⟨hpresents.coherent, MainMemory.capacity_congr hpresents.lineCount_eq,
        hpresents.view_eq, nofun⟩
    · refine ⟨hpresents.coherent, MainMemory.capacity_congr hpresents.lineCount_eq,
        hpresents.view_eq, ?_⟩
      intro n hn
      obtain rfl := Poll.done.inj hn
      exact fitting_bounds _ _ _

end PipelinedProcessor
