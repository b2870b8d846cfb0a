/-
# Proofs.Assembling — what is written step by step is what the layout says

While a stretch of code is written, the displacements of the branches to its end are still
zero.  So what lies in the buffer is the bytes of the layout but for some words
(`CodeBuffer.AppendsBut`), each of which waits for a label.  At its place the layout has
the displacement that is filled in there once the label is bound (`HoldsWord`), and then
the word is no longer open.

`Writes l t m v bytes` says of an action that it writes these bytes but for branches to
labels below `l`, which wait for the places that `t` has for them.  The rules are those of
the actions that code is written with; one of them closes a stretch (`Writes.ending`).  By
induction on the code it is written as it is laid out (`Code.write_writes`), and a whole
function, whose return is bound, has nothing left open.
-/
import PixelPipeline.Code.Assembling
import PixelPipeline.Proofs.Padding

namespace PixelPipeline

open X86

/-! ## Words among bytes -/

/-- Among bytes that start at `start` there is a word at `field`. -/
def HoldsWord (start : Nat) (bytes : List Byte) (field : Nat) (w : BitVec 32) : Prop :=
  ∃ front back, bytes = front ++ le32 w ++ back ∧ field = start + front.length

namespace HoldsWord

variable {start field : Nat} {xs ys : List Byte} {w : BitVec 32}

theorem append (h : HoldsWord start xs field w) (ys : List Byte) :
    HoldsWord start (xs ++ ys) field w := by
  obtain ⟨front, back, rfl, rfl⟩ := h
  exact ⟨front, back ++ ys, by simp only [List.append_assoc], rfl⟩

theorem behind {start' : Nat} (hlen : start + xs.length = start')
    (h : HoldsWord start' ys field w) : HoldsWord start (xs ++ ys) field w := by
  obtain ⟨front, back, rfl, rfl⟩ := h
  subst hlen
  exact ⟨xs ++ front, back, by simp only [List.append_assoc],
    by rw [List.length_append, Nat.add_assoc]⟩

theorem bounds (h : HoldsWord start xs field w) : start ≤ field ∧ field + 4 ≤ start + xs.length := by
  obtain ⟨front, back, rfl, rfl⟩ := h
  have hlen : (le32 w).length = 4 := rfl
  simp only [List.length_append]
  omega

/-- A byte at the place of the word is a byte of the word. -/
theorem getElem? (h : HoldsWord start xs field w) {i : Nat} {v : Byte} (hv : xs[i]? = some v)
    (hle : field ≤ start + i) (hlt : start + i < field + 4) :
    (le32 w)[start + i - field]? = some v := by
  obtain ⟨front, back, rfl, rfl⟩ := h
  have hlen : (le32 w).length = 4 := rfl
  have hat : start + i - (start + front.length) = i - front.length := by omega
  rwa [List.append_assoc, List.getElem?_append_right (by omega),
    List.getElem?_append_left (by omega), ← hat] at hv

end HoldsWord

/-! ## Bytes with open displacements -/

namespace CodeBuffer

variable {b b' b'' : CodeBuffer} {xs ys bytes : List Byte} {P Q : Nat → Prop} {field : Nat}
  {w : BitVec 32}

/-- The second buffer holds some bytes more than the first, but for the words at places
with `P`. -/
structure AppendsBut (b : CodeBuffer) (bytes : List Byte) (P : Nat → Prop) (b' : CodeBuffer) :
    Prop where
  offset : b'.offset = b.offset + bytes.length
  capacity : b'.capacity = b.capacity
  before : ∀ i, i < b.offset → b'.byteAt i = b.byteAt i
  bytes : ∀ i v, bytes[i]? = some v →
    (∀ field, P field → b.offset + i < field ∨ field + 4 ≤ b.offset + i) →
    b'.byteAt (b.offset + i) = v
  size : b'.written.size ≤ max b.written.size b'.offset

theorem Appends.but (h : b.Appends bytes b') (P : Nat → Prop) : b.AppendsBut bytes P b' :=
  ⟨h.offset, h.capacity, h.before, fun i v hv _ => h.bytes i v hv, h.size⟩

/-- A word that was appended as zero stands for any word that it is to become. -/
theorem Appends.opened (h : b.Appends (xs ++ le32 0) b') (w : BitVec 32) :
    b.AppendsBut (xs ++ le32 w) (· = b.offset + xs.length) b' := by
  have hlen (w : BitVec 32) : (xs ++ le32 w).length = xs.length + 4 := List.length_append
  refine ⟨h.offset.trans (by rw [hlen, hlen]), h.capacity, h.before, fun i v hv hout => ?_, h.size⟩
  have hi := (List.getElem?_eq_some_iff.mp hv).1
  have hfront : i < xs.length := by
    have := hout _ rfl
    rw [hlen] at hi
    omega
  rw [List.getElem?_append_left hfront] at hv
  exact h.bytes i v ((List.getElem?_append_left hfront).trans hv)

namespace AppendsBut

theorem closed (h : b.AppendsBut bytes P b') (hP : ∀ field, ¬P field) : b.Appends bytes b' :=
  ⟨h.offset, h.capacity, h.before,
    fun i v hv => h.bytes i v hv fun field hf => absurd hf (hP field), h.size⟩

/-- More may be open. -/
theorem mono (h : b.AppendsBut bytes P b') (hPQ : ∀ field, P field → Q field) :
    b.AppendsBut bytes Q b' :=
  ⟨h.offset, h.capacity, h.before,
    fun i v hv hout => h.bytes i v hv fun field hf => hout field (hPQ field hf), h.size⟩

theorem trans (h : b.AppendsBut xs P b') (h' : b'.AppendsBut ys P b'') :
    b.AppendsBut (xs ++ ys) P b'' where
  offset := by rw [h'.offset, h.offset, List.length_append, Nat.add_assoc]
  capacity := h'.capacity.trans h.capacity
  before i hi := (h'.before i (h.offset ▸ Nat.lt_add_right _ hi)).trans (h.before i hi)
  bytes i v hv hout := by
    by_cases hi : i < xs.length
    · rw [List.getElem?_append_left hi] at hv
      rw [h'.before _ (by rw [h.offset]; omega)]
      exact h.bytes i v hv hout
    · rw [List.getElem?_append_right (Nat.le_of_not_lt hi)] at hv
      have hat : b'.offset + (i - xs.length) = b.offset + i := by
        rw [h.offset]
        omega
      rw [← hat] at hout ⊢
      exact h'.bytes _ v hv hout
  size := by
    have hsize := h.size
    have hsize' := h'.size
    have hoffset := h'.offset
    omega

/-- A word that is filled in is no longer open. -/
theorem withWord (h : b.AppendsBut bytes P b') (hword : HoldsWord b.offset bytes field w) :
    b.AppendsBut bytes (fun f => P f ∧ f ≠ field) (b'.withWord field w) where
  offset := h.offset
  capacity := h.capacity
  before i hi :=
    (byteAt_withWord (.inl (Nat.lt_of_lt_of_le hi hword.bounds.1))).trans (h.before i hi)
  bytes i v hv hout := by
    by_cases hin : field ≤ b.offset + i ∧ b.offset + i < field + 4
    · have hat : (b'.withWord field w).byteAt (field + (b.offset + i - field)) = v :=
        byteAt_withWord_self (hword.getElem? hv hin.1 hin.2)
      rwa [Nat.add_sub_cancel' hin.1] at hat
    · have hout' : b.offset + i < field ∨ field + 4 ≤ b.offset + i := by omega
      rw [byteAt_withWord hout']
      refine h.bytes i v hv fun f hf => ?_
      by_cases hfield : f = field
      · exact hfield ▸ hout'
      · exact hout f ⟨hf, hfield⟩
  size := by
    have hput := size_putAll_le b'.written field (le32 w)
    have hlen : (le32 w).length = 4 := rfl
    have hend := hword.bounds.2
    have hoffset := h.offset
    have hsize := h.size
    have hat : (b'.withWord field w).offset = b'.offset := rfl
    rw [written_withWord, hat]
    omega

end AppendsBut

end CodeBuffer

namespace Assembly

variable {α β : Type} {a a' a'' : Assembly} {b : CodeBuffer} {bytes xs ys : List Byte} {k l : Nat}

/-! ## Steps -/

/-- The labels, of which one has another displacement waiting for it. -/
def awaiting (a : Assembly) (k field : Nat) (j : Nat) : Label :=
  if j = k then { a.labels k with uses := (a.labels k).uses ++ [field] } else a.labels j

/-- The labels, of which one is bound. -/
def binding (a : Assembly) (k target : Nat) (j : Nat) : Label :=
  if j = k then { value := some target } else a.labels j

/-- A label that has been renewed. -/
def renewed (a : Assembly) (k : Nat) : Assembly :=
  { a with labels := fun j => if j = k then {} else a.labels j }

/-- A displacement to a label that has no place yet. -/
theorem reference_ok {opening : List Byte} {opened : Action Unit}
    (hopened : opened a = .ok () { a with buffer := b }) (happ : a.buffer.Appends opening b)
    (hnone : (a.labels k).value = none) (hroom : b.offset + 4 ≤ b.capacity) (w : BitVec 32) :
    ∃ b', (opened >>= fun _ => reference k) a =
        .ok () ⟨b', a.awaiting k (a.buffer.offset + opening.length)⟩ ∧
      a.buffer.AppendsBut (opening ++ le32 w) (· = a.buffer.offset + opening.length) b' := by
  have hfits : b.offset + (le32 0).length ≤ b.capacity := hroom
  obtain ⟨b', hemit, hzero⟩ := CodeBuffer.emit_appends hfits
  refine ⟨b', ?_, (happ.trans hzero).opened w⟩
  have hwritten : onBuffer (CodeBuffer.emit (le32 0)) { a with buffer := b } =
      .ok () { a with buffer := b' } := onBuffer_ok hemit
  rw [run_bind hopened, reference_waits hwritten hnone, ← happ.offset]
  rfl

/-- What waits is filled in, one displacement after the other. -/
theorem resolve_ok {b : CodeBuffer} {P : Nat → Prop} {target : Nat} {uses : List Nat}
    (h : b.AppendsBut bytes P a.buffer)
    (hwords : ∀ field ∈ uses, HoldsWord b.offset bytes field (displacement field (some target)))
    (htarget : target ≤ a.buffer.capacity) :
    ∃ b', resolve target uses a = .ok () { a with buffer := b' } ∧
      b.AppendsBut bytes (fun field => P field ∧ field ∉ uses) b' := by
  induction uses generalizing a P with
  | nil => exact ⟨a.buffer, rfl, h.mono fun field hf => ⟨hf, List.not_mem_nil⟩⟩
  | cons field rest ih =>
    have hword := hwords field List.mem_cons_self
    have hfield : field + 4 ≤ a.buffer.capacity := by
      have hend := hword.bounds.2
      have hoffset := h.offset
      have hle := a.buffer.offset_le
      omega
    obtain ⟨b', hrest, happ⟩ := ih
      (a := { a with buffer := a.buffer.withWord field (displacement field (some target)) })
      (h.withWord hword) (fun f hf => hwords f (List.mem_cons_of_mem _ hf)) htarget
    refine ⟨b', (run_bind (patchDisplacement_ok hfield htarget)).trans hrest,
      happ.mono fun f hf => ⟨hf.1.1, fun hmem => ?_⟩⟩
    exact (List.mem_cons.mp hmem).elim hf.1.2 hf.2

/-! ## Open branches -/

/-- Labels below `l` have no place yet. -/
def Open (a : Assembly) (l : Nat) : Prop := ∀ k, k < l → (a.labels k).value = none

/-- What is left between two states: bytes, but for branches to labels below `l`, which wait
for the places that `t` has for them. -/
structure Waits (l : Nat) (t : Nat → Nat) (bytes : List Byte) (w : Nat → List Nat)
    (a a' : Assembly) : Prop where
  buffer : a.buffer.AppendsBut bytes (fun field => ∃ k, k < l ∧ field ∈ w k) a'.buffer
  labels : ∀ k, k < l → a'.labels k = { a.labels k with uses := (a.labels k).uses ++ w k }
  words : ∀ k, k < l → ∀ field ∈ w k,
    HoldsWord a.buffer.offset bytes field (displacement field (some (t k)))

/-- An action that writes bytes from a position on, but for branches to labels below `l`. -/
def Writes (l : Nat) (t : Nat → Nat) (m : Action α) (v : α) (bytes : List Byte)
    (pos capacity : Nat) : Prop :=
  ∀ a : Assembly, a.buffer.offset = pos → a.buffer.capacity = capacity → a.Open l →
    ∃ a' w, m a = .ok v a' ∧ Waits l t bytes w a a'

namespace Waits

variable {t : Nat → Nat} {w w' : Nat → List Nat}

theorem opened (h : Waits l t bytes w a a') (ha : a.Open l) : a'.Open l := fun k hk => by
  rw [h.labels k hk]
  exact ha k hk

theorem of_appends (h : a.buffer.Appends bytes b) :
    Waits l t bytes (fun _ => []) a { a with buffer := b } :=
  ⟨h.but _, fun _ _ => by rw [List.append_nil], fun _ _ _ hf => absurd hf List.not_mem_nil⟩

theorem trans (h : Waits l t xs w a a') (h' : Waits l t ys w' a' a'') :
    Waits l t (xs ++ ys) (fun k => w k ++ w' k) a a'' where
  buffer := (h.buffer.mono fun _ ⟨k, hk, hf⟩ => ⟨k, hk, List.mem_append_left _ hf⟩).trans
    (h'.buffer.mono fun _ ⟨k, hk, hf⟩ => ⟨k, hk, List.mem_append_right _ hf⟩)
  labels k hk := by rw [h'.labels k hk, h.labels k hk, List.append_assoc]
  words k hk field hf := (List.mem_append.mp hf).elim
    (fun hf => (h.words k hk field hf).append ys)
    (fun hf => .behind h.buffer.offset.symm (h'.words k hk field hf))

end Waits

namespace Writes

variable {t : Nat → Nat} {m : Action α} {f : α → Action β} {v : α} {u : β} {pos capacity : Nat}

/-! ## Sequence -/

theorem pure (v : α) : Writes l t (pure v) v [] pos capacity := fun a _ _ _ =>
  ⟨a, _, rfl, .of_appends ⟨rfl, rfl, fun _ _ => rfl, nofun, Nat.le_max_left _ _⟩⟩

theorem bind {q : Nat} (hm : Writes l t m v xs pos capacity) (hlen : pos + xs.length = q)
    (hf : Writes l t (f v) u ys q capacity) : Writes l t (m >>= f) u (xs ++ ys) pos capacity := by
  subst hlen
  rintro a rfl rfl ha
  obtain ⟨a', w, hrun, h⟩ := hm a rfl rfl ha
  obtain ⟨a'', w', hrun', h'⟩ := hf a' h.buffer.offset h.buffer.capacity (h.opened ha)
  exact ⟨a'', _, (run_bind hrun).trans hrun', h.trans h'⟩

theorem map {g : α → β} (hm : Writes l t m v bytes pos capacity) :
    Writes l t (m >>= fun v => Pure.pure (g v)) (g v) bytes pos capacity := by
  rw [← List.append_nil bytes]
  exact hm.bind rfl (.pure (g v))

theorem here : Writes l t here pos [] pos capacity := by
  rintro a rfl rfl ha
  exact pure (t := t) a.buffer.offset a rfl rfl ha

/-! ## Bytes -/

theorem onBuffer {action : CodeBuffer.Action Unit}
    (h : ∀ b : CodeBuffer, b.offset = pos → b.capacity = capacity →
      ∃ b', action b = .ok () b' ∧ b.Appends bytes b') :
    Writes l t (onBuffer action) () bytes pos capacity := by
  intro a hpos hcapacity _
  obtain ⟨b, hrun, happ⟩ := h a.buffer hpos hcapacity
  exact ⟨_, _, onBuffer_ok hrun, .of_appends happ⟩

theorem op {i : Instr} (hroom : pos + i.size ≤ capacity) :
    Writes l t (op i) () i.bytes pos capacity :=
  onBuffer fun _ hpos hcapacity => CodeBuffer.emitAll_appends (hpos.symm ▸ hcapacity.symm ▸ hroom)

theorem ops {is : List Instr} (hroom : pos + Code.rowSize is ≤ capacity) :
    Writes l t (ops is) () (Code.rowBytes is) pos capacity := by
  induction is generalizing pos with
  | nil => exact pure ()
  | cons i rest ih =>
    rw [Code.rowSize, ← Nat.add_assoc] at hroom
    exact (op (by omega)).bind rfl (ih hroom)

/-! ## Branches -/

/-- A branch to a label below `l`, whose displacement is the end of it. -/
theorem branch (opening : List Byte) {opened : Action Unit} (hk : k < l)
    (hopened : ∀ a : Assembly, a.buffer.offset = pos → a.buffer.capacity = capacity →
      ∃ b, opened a = .ok () { a with buffer := b } ∧ a.buffer.Appends opening b)
    (hroom : pos + opening.length + 4 ≤ capacity) :
    Writes l t (opened >>= fun _ => reference k) ()
      (opening ++ le32 (displacement (pos + opening.length) (some (t k)))) pos capacity := by
  rintro a rfl rfl ha
  obtain ⟨b, hopened, happ⟩ := hopened a rfl rfl
  obtain ⟨b', hrun, happ'⟩ := reference_ok hopened happ (ha k hk)
    (by rw [happ.offset, happ.capacity]; exact hroom)
    (displacement (a.buffer.offset + opening.length) (some (t k)))
  generalize hfield : a.buffer.offset + opening.length = field at happ' hrun ⊢
  refine ⟨_, fun j => if j = k then [field] else [], hrun, ?_, fun j _ => ?_, fun j _ f hf => ?_⟩
  · exact happ'.mono fun f hf => ⟨k, hk, by rw [if_pos rfl, hf]; exact List.mem_singleton_self _⟩
  · by_cases hj : j = k
    · subst hj
      simp only [awaiting, if_pos]
    · simp only [awaiting, if_neg hj, List.append_nil]
  · split at hf
    · rename_i hj
      rw [List.mem_singleton.mp hf, hj, ← hfield]
      exact ⟨opening, [], by rw [List.append_nil], rfl⟩
    · cases hf

theorem jump (hk : k < l) (hroom : pos + Code.jumpSize ≤ capacity) :
    Writes l t (jump k) () (Code.jumpTo (t k) pos) pos capacity := by
  unfold Code.jumpSize at hroom
  refine branch [0xE9] hk (fun a hpos hcapacity => ?_) (by
    show pos + 1 + 4 ≤ capacity
    omega)
  have hfits : a.buffer.offset + [(0xE9 : Byte)].length ≤ a.buffer.capacity := by
    show a.buffer.offset + 1 ≤ _
    omega
  obtain ⟨b, hemit, happ⟩ := CodeBuffer.emit_appends hfits
  exact ⟨b, onBuffer_ok hemit, happ⟩

theorem jumpIf {c : Cond} (hk : k < l) (hroom : pos + Code.jumpIfSize ≤ capacity) :
    Writes l t (jumpIf k c) () (Code.jumpIfTo c (t k) pos) pos capacity := by
  unfold Code.jumpIfSize at hroom
  refine branch [0x0F, (8 : BitVec 4) ++ c.code] hk (fun a hpos hcapacity => ?_) (by
    show pos + 2 + 4 ≤ capacity
    omega)
  have hfits : a.buffer.offset + [[0x0F], [(8 : BitVec 4) ++ c.code]].flatten.length ≤
      a.buffer.capacity := by
    show a.buffer.offset + 2 ≤ _
    omega
  obtain ⟨b, hemit, happ⟩ := CodeBuffer.emitAll_appends hfits
  exact ⟨b, onBuffer_ok hemit, happ⟩

end Writes

/-! ## Stretches -/

/-- The places of labels, where `l` has a place of its own. -/
def aim (t : Nat → Nat) (l target : Nat) (k : Nat) : Nat := if k = l then target else t k

@[simp] theorem aim_self (t : Nat → Nat) (l target : Nat) : aim t l target l = target := if_pos rfl

theorem aim_of_lt (t : Nat → Nat) (target : Nat) (h : k < l) : aim t l target k = t k :=
  if_neg (Nat.ne_of_lt h)

/-- At the end of a stretch its label is bound, and no branch to it is open. -/
theorem Writes.ending {t : Nat → Nat} {stretch : Action α} {v : α} {pos capacity finish : Nat}
    (hfinish : pos + bytes.length = finish)
    (h : Writes (l + 1) (aim t l finish) stretch v bytes pos capacity) :
    Writes l t (ending l stretch) v bytes pos capacity := by
  subst hfinish
  rintro a rfl rfl ha
  have hnew : (a.renewed l).labels l = {} := if_pos rfl
  have hold (k) (hk : k < l) : (a.renewed l).labels k = a.labels k := if_neg (Nat.ne_of_lt hk)
  have hopen : (a.renewed l).Open (l + 1) := fun k hk => by
    rcases Nat.lt_succ_iff_lt_or_eq.mp hk with hk | rfl
    · rw [hold k hk]
      exact ha k hk
    · rw [hnew]
  obtain ⟨a', w, hrun, h⟩ := h (a.renewed l) rfl rfl hopen
  have huses : (a'.labels l).uses = w l := by
    rw [h.labels l (Nat.lt_succ_self l), hnew]
    rfl
  have hwords : ∀ field ∈ w l, HoldsWord a.buffer.offset bytes field
      (displacement field (some a'.buffer.offset)) := fun field hf => by
    have hend : a'.buffer.offset = a.buffer.offset + bytes.length := h.buffer.offset
    have hword := h.words l (Nat.lt_succ_self l) field hf
    rw [aim_self] at hword
    exact hend ▸ hword
  obtain ⟨b, hresolve, happ⟩ := resolve_ok
    (a := { a' with labels := a'.binding l a'.buffer.offset }) h.buffer hwords a'.buffer.offset_le
  have hbind : Assembly.bind l a' = .ok () ⟨b, a'.binding l a'.buffer.offset⟩ := by
    rw [← huses] at hresolve
    exact hresolve
  refine ⟨_, w, (run_bind (show renew l a = .ok () (a.renewed l) from rfl)).trans
    ((run_bind hrun).trans (run_bind hbind)), ?_, fun k hk => ?_, fun k hk field hf => ?_⟩
  · refine happ.mono fun field ⟨⟨k, hk, hf⟩, hout⟩ => ⟨k, ?_, hf⟩
    rcases Nat.lt_succ_iff_lt_or_eq.mp hk with hk | rfl
    · exact hk
    · exact absurd hf hout
  · have hbound : a'.binding l a'.buffer.offset k = a'.labels k := if_neg (Nat.ne_of_lt hk)
    refine hbound.trans ((h.labels k (Nat.lt_succ_of_lt hk)).trans ?_)
    rw [hold k hk]
  · rw [← aim_of_lt t (a.buffer.offset + bytes.length) hk]
    exact h.words k (Nat.lt_succ_of_lt hk) field hf

end Assembly

namespace Code

open Assembly

variable {α : Type} {l f : Nat} {t : Nat → Nat} {pos capacity : Nat}

/-! ## Selections -/

theorem writes_body (hexit : exitLabel < l) (hf : f < l) {body : Option (List Instr)}
    (rest : List (Option (List Instr))) (hroom : pos + bodySize body ≤ capacity) :
    ∃ xs, Writes l t (writeBody f body) () xs pos capacity ∧
      pos + xs.length = pos + bodySize body ∧
      bodyBytes (t exitLabel) (t f) pos (body :: rest) =
        xs ++ bodyBytes (t exitLabel) (t f) (pos + bodySize body) rest := by
  cases body with
  | none => exact ⟨_, .jump hexit hroom, rfl, rfl⟩
  | some is =>
    have hsize : bodySize (some is) = rowSize is + jumpSize := rfl
    have hlen : pos + (rowBytes is).length = pos + rowSize is :=
      congrArg (pos + ·) (length_rowBytes is)
    refine ⟨_, (Writes.ops (by omega)).bind hlen (.jump hf (by omega)), ?_, rfl⟩
    rw [List.length_append, length_rowBytes]
    rfl

theorem writes_bodies (hexit : exitLabel < l) (hf : f < l) {bodies : List (Option (List Instr))}
    (hroom : pos + bodiesSize bodies ≤ capacity) :
    Writes l t (writeBodies f bodies) (bodyStarts pos bodies)
      (bodyBytes (t exitLabel) (t f) pos bodies) pos capacity := by
  induction bodies generalizing pos with
  | nil => exact .pure []
  | cons body rest ih =>
    have hsize : bodiesSize (body :: rest) = bodySize body + bodiesSize rest := rfl
    obtain ⟨xs, hbody, hlen, hbytes⟩ := writes_body (t := t) hexit hf rest
      (show pos + bodySize body ≤ capacity by omega)
    rw [hbytes]
    exact Writes.here.bind rfl (hbody.bind hlen (ih (by omega)).map)

theorem writes_table (base : BitVec 64) {starts : List Nat}
    (hroom : pos + 8 * starts.length ≤ capacity) :
    Writes l t (writeTable base starts) ()
      (starts.flatMap fun start => le64 (base + BitVec.ofNat 64 start)) pos capacity := by
  induction starts generalizing pos with
  | nil => exact .pure ()
  | cons start rest ih =>
    rw [List.length_cons] at hroom
    refine .bind (q := pos + 8) (.onBuffer fun b hpos hcapacity => ?_) rfl (ih (by omega))
    refine CodeBuffer.emit_appends ?_
    show b.offset + 8 ≤ b.capacity
    omega

theorem writes_align {align : Nat} (halign : align ≠ 0)
    (hroom : pos + Padding.distance pos align ≤ capacity) :
    Writes l t (onBuffer (Padding.emitAlign align)) ()
      (Padding.bytes (Padding.distance pos align)) pos capacity := by
  refine .onBuffer fun b hpos hcapacity => ?_
  subst hpos hcapacity
  obtain ⟨b', hemit, happ⟩ := CodeBuffer.emit_appends (b := b)
    (by rwa [Padding.length_bytes] : b.offset +
      (Padding.bytes (Padding.distance b.offset align)).length ≤ b.capacity)
  refine ⟨b', ?_, happ⟩
  show (if align = 0 then _ else _ : CodeBuffer.Action Unit) b = _
  rw [if_neg halign]
  exact (Padding.emit_eq hroom).trans hemit

/-- The displacement of a load of an address is the end of it. -/
theorem exists_leaRip_eq (dst : Reg) :
    ∃ front : List Byte, ∀ w, (Instr.leaRip dst w).bytes = front ++ le32 w := by
  refine ⟨(Opcode.pieces { byte := 0x8D, wide := true } dst.num 0 0 ++
    [[modRM 0 dst.low 5]]).flatten, fun w => ?_⟩
  simp only [Instr.bytes, Instr.encode, List.flatten_append, List.flatten_cons, List.flatten_nil,
    List.append_nil, List.append_assoc]

/-- The load of an address is pointed to its target at once. -/
theorem writes_leaRip {dst : Reg} {target : Nat} (htarget : target ≤ capacity)
    (hroom : pos + (Instr.leaRip dst 0).size ≤ capacity) :
    Writes l t (leaRip dst >>= fun field => patchDisplacement field target) ()
      (Instr.leaRip dst (displacementTo target (pos + (Instr.leaRip dst 0).size))).bytes
      pos capacity := by
  rintro a rfl rfl -
  obtain ⟨front, hbytes⟩ := exists_leaRip_eq dst
  obtain ⟨b, hemit, happ⟩ := CodeBuffer.emitAll_appends (b := a.buffer) hroom
  have hend : b.offset = a.buffer.offset + (Instr.leaRip dst 0).size := happ.offset
  have hcapacity : b.capacity = a.buffer.capacity := happ.capacity
  have hsize : (Instr.leaRip dst 0).size = front.length + 4 := by
    rw [Instr.size, hbytes]
    exact List.length_append
  have hfield : b.offset - 4 = a.buffer.offset + front.length := by omega
  have hlea : leaRip dst a = .ok (b.offset - 4) { a with buffer := b } :=
    run_bind (onBuffer_ok hemit)
  -- the word that the displacement gets
  have hw : displacementTo target (a.buffer.offset + (Instr.leaRip dst 0).size) =
      displacement (b.offset - 4) (some target) := by
    rw [← hend, ← Nat.sub_add_cancel (show 4 ≤ b.offset by omega), Nat.add_sub_cancel]
    rfl
  have hpatch : patchDisplacement (b.offset - 4) target { a with buffer := b } = .ok () _ :=
    patchDisplacement_ok (show b.offset - 4 + 4 ≤ b.capacity by omega)
      (show target ≤ b.capacity by omega)
  have hzero : a.buffer.Appends (front ++ le32 0) b := by
    rw [← hbytes]
    exact happ
  rw [hw, hbytes]
  generalize displacement (b.offset - 4) (some target) = w at hpatch
  have hopen := hzero.opened w
  have hclosed := hopen.withWord ⟨front, [], (List.append_nil _).symm, hfield⟩
  exact ⟨_, _, (run_bind hlea).trans hpatch,
    .of_appends (hclosed.closed fun _ hf => hf.2 (hf.1.trans hfield.symm))⟩

theorem writes_dispatch {table index : Reg} {tableAt : Nat} (htable : tableAt ≤ capacity)
    (hroom : pos + (Instr.leaRip table 0).size + (tableJump table index).size ≤ capacity) :
    Writes l t (writeDispatch table index tableAt) ()
      ((Instr.leaRip table (displacementTo tableAt (pos + (Instr.leaRip table 0).size))).bytes ++
        (tableJump table index).bytes) pos capacity := by
  unfold writeDispatch
  rw [← bind_assoc]
  exact (writes_leaRip htable (by omega)).bind (congrArg (pos + ·) (length_leaRip _ _)) (.op hroom)

/-- What a selection has in front of its dispatch. -/
def caseBytes (base : BitVec 64) (exit finish pos : Nat) (bodies : List (Option (List Instr))) :
    List Byte :=
  jumpTo (dispatchStart pos bodies) pos ++ bodyBytes exit finish (pos + jumpSize) bodies ++
    Padding.bytes (Padding.distance (pos + jumpSize + bodiesSize bodies) 8) ++
    (bodyStarts (pos + jumpSize) bodies).flatMap
      (fun start => le64 (base + BitVec.ofNat 64 start))

theorem selectBytes_eq (base : BitVec 64) (exit pos : Nat) (table index : Reg)
    (bodies : List (Option (List Instr))) :
    selectBytes base exit pos table index bodies =
      caseBytes base exit (selectEnd pos table index bodies) pos bodies ++
        ((Instr.leaRip table (displacementTo (tableStart pos bodies)
          (dispatchStart pos bodies + (Instr.leaRip table 0).size))).bytes ++
            (tableJump table index).bytes) :=
  List.append_assoc _ _ _

theorem length_caseBytes (base : BitVec 64) (exit finish pos : Nat)
    (bodies : List (Option (List Instr))) :
    pos + (caseBytes base exit finish pos bodies).length = dispatchStart pos bodies := by
  simp only [caseBytes, List.length_append, length_jumpTo, length_bodyBytes, Padding.length_bytes,
    length_tableBytes, length_bodyStarts, dispatchStart, tableStart]
  omega

/-- The bodies and their table stand behind a jump to where they end. -/
theorem writes_cases (base : BitVec 64) (hexit : exitLabel < l) (hf : f < l)
    (bodies : List (Option (List Instr))) (hroom : dispatchStart pos bodies ≤ capacity) :
    Writes l t (writeCases base f l bodies) (tableStart pos bodies)
      (caseBytes base (t exitLabel) (t f) pos bodies) pos capacity := by
  have htable : tableStart pos bodies = pos + jumpSize + bodiesSize bodies +
      Padding.distance (pos + jumpSize + bodiesSize bodies) 8 := rfl
  have hdispatch : dispatchStart pos bodies = tableStart pos bodies + 8 * bodies.length := rfl
  have hlen := length_bodyStarts (pos + jumpSize) bodies
  refine .ending (length_caseBytes base (t exitLabel) (t f) pos bodies) ?_
  generalize haim : aim t l (dispatchStart pos bodies) = t'
  have hjump : jumpTo (dispatchStart pos bodies) pos = jumpTo (t' l) pos := by
    rw [← haim, aim_self]
  rw [caseBytes, hjump, ← aim_of_lt t (dispatchStart pos bodies) hexit,
    ← aim_of_lt t (dispatchStart pos bodies) hf, haim]
  simp only [List.append_assoc]
  refine (Writes.jump (Nat.lt_succ_self l) (by omega)).bind rfl ?_
  refine (writes_bodies (Nat.lt_succ_of_lt hexit) (Nat.lt_succ_of_lt hf) (by omega)).bind
    (congrArg (pos + jumpSize + ·) (length_bodyBytes _ _ _ _)) ?_
  refine (writes_align (by decide) (by omega)).bind (q := tableStart pos bodies)
    (congrArg (pos + jumpSize + bodiesSize bodies + ·) (Padding.length_bytes _)) ?_
  exact Writes.here.bind (q := tableStart pos bodies) rfl (writes_table base (by omega)).map

theorem writes_select (base : BitVec 64) (hexit : exitLabel < l) {table index : Reg}
    {bodies : List (Option (List Instr))} (hroom : selectEnd pos table index bodies ≤ capacity) :
    Writes l t (ending l do
        let tableAt ← writeCases base l (l + 1) bodies
        writeDispatch table index tableAt) ()
      (selectBytes base (t exitLabel) pos table index bodies) pos capacity := by
  have hend : selectEnd pos table index bodies = dispatchStart pos bodies +
      (Instr.leaRip table 0).size + (tableJump table index).size := rfl
  have hdispatch : dispatchStart pos bodies = tableStart pos bodies + 8 * bodies.length := rfl
  refine .ending (length_selectBytes base (t exitLabel) pos table index bodies) ?_
  rw [selectBytes_eq]
  have hcases := writes_cases (t := aim t l (selectEnd pos table index bodies)) base
    (Nat.lt_succ_of_lt hexit) (Nat.lt_succ_self l) bodies
    (show dispatchStart pos bodies ≤ capacity by omega)
  rw [aim_self, aim_of_lt t _ hexit] at hcases
  exact hcases.bind (length_caseBytes _ _ _ pos bodies) (writes_dispatch (by omega) (by omega))

/-! ## Code -/

section

variable {v v' : List (Nat × Stage)} {xs ys : List Byte} {c : Cond} {noEnd finish : Nat}

/-- A branch leads to the end of the stretch that it opens. -/
theorem writes_skip {body : Action (List (Nat × Stage))} (hroom : pos + jumpIfSize ≤ capacity)
    (hfinish : pos + jumpIfSize + xs.length = finish)
    (hbody : Writes (l + 1) (aim t l finish) body v xs (pos + jumpIfSize) capacity) :
    Writes l t (ending l do
        Assembly.jumpIf l c
        body) v (jumpIfTo c finish pos ++ xs) pos capacity := by
  have hjump := Writes.jumpIf (t := aim t l finish) (c := c) (Nat.lt_succ_self l) hroom
  rw [aim_self] at hjump
  refine .ending ?_ (hjump.bind rfl hbody)
  rw [List.length_append, length_jumpIfTo, ← Nat.add_assoc]
  exact hfinish

/-- Of two stretches the first has a branch to the second in front of it, and behind it a jump
to where both end. -/
theorem writes_fork {no yes : Action (List (Nat × Stage))} (hroom : noEnd + jumpSize ≤ capacity)
    (hnoEnd : pos + jumpIfSize + xs.length = noEnd)
    (hfinish : noEnd + jumpSize + ys.length = finish)
    (hno : Writes (l + 2) (aim (aim t l finish) (l + 1) (noEnd + jumpSize)) no v xs
      (pos + jumpIfSize) capacity)
    (hyes : Writes (l + 1) (aim t l finish) yes v' ys (noEnd + jumpSize) capacity) :
    Writes l t (ending l do
        let noMarks ← ending (l + 1) do
          Assembly.jumpIf (l + 1) c
          let noMarks ← no
          Assembly.jump l
          pure noMarks
        let yesMarks ← yes
        pure (noMarks ++ yesMarks)) (v ++ v')
      (jumpIfTo c (noEnd + jumpSize) pos ++ xs ++ jumpTo finish noEnd ++ ys) pos capacity := by
  have hjump := Writes.jump (t := aim (aim t l finish) (l + 1) (noEnd + jumpSize))
    (show l < l + 2 by omega) hroom
  rw [aim_of_lt _ _ (Nat.lt_succ_self l), aim_self] at hjump
  have hlen : pos + jumpIfSize + (xs ++ jumpTo finish noEnd).length = noEnd + jumpSize := by
    rw [List.length_append, length_jumpTo, ← Nat.add_assoc, hnoEnd]
  have hjoined : Writes (l + 2) (aim (aim t l finish) (l + 1) (noEnd + jumpSize)) (do
      let noMarks ← no
      Assembly.jump l
      pure noMarks) v (xs ++ jumpTo finish noEnd) (pos + jumpIfSize) capacity :=
    hno.bind hnoEnd (hjump.map (g := fun _ => v))
  have hfirst := writes_skip (c := c) (show pos + jumpIfSize ≤ capacity by omega) hlen hjoined
  have hskipped : pos + (jumpIfTo c (noEnd + jumpSize) pos ++ (xs ++ jumpTo finish noEnd)).length =
      noEnd + jumpSize := by
    rw [List.length_append, length_jumpIfTo, ← Nat.add_assoc, hlen]
  rw [List.append_assoc (jumpIfTo c _ pos)]
  refine .ending ?_ (hfirst.bind hskipped hyes.map)
  rw [List.length_append, ← Nat.add_assoc, hskipped, hfinish]

end

/-- Code is written as it is laid out, but for the branches to the return, which wait for the
place that it will have. -/
theorem write_writes (base : BitVec 64) (code : Code) (hexit : exitLabel < l)
    (hroom : code.stop pos ≤ capacity) :
    Writes l t (code.write base l) (code.marks pos) (code.bytes base (t exitLabel) pos)
      pos capacity := by
  induction code generalizing l t pos with
  | done => exact .pure []
  | instr i next ih =>
    have hnext := le_stop (pos + i.size) next
    exact (Writes.op (Nat.le_trans hnext hroom)).bind rfl (ih hexit hroom)
  | mark s next ih => exact Writes.here.bind rfl (ih hexit hroom).map
  | leave next ih =>
    have hnext := le_stop (pos + jumpSize) next
    exact (Writes.jump hexit (Nat.le_trans hnext hroom)).bind rfl (ih hexit hroom)
  | leaveIf c next ih =>
    have hnext := le_stop (pos + jumpIfSize) next
    exact (Writes.jumpIf hexit (Nat.le_trans hnext hroom)).bind rfl (ih hexit hroom)
  | skipIf c body next ihBody ih =>
    have hstart := le_stop (pos + jumpIfSize) body
    have hnext := le_stop (body.stop (pos + jumpIfSize)) next
    rw [stop] at hroom
    generalize hfinish : body.stop (pos + jumpIfSize) = finish at *
    have hlen := hfinish ▸ length_bytes base (t exitLabel) (pos + jumpIfSize) body
    have hbody := ihBody (t := aim t l finish) (l := l + 1) (Nat.lt_succ_of_lt hexit)
      (show body.stop (pos + jumpIfSize) ≤ capacity by omega)
    rw [aim_of_lt t _ hexit] at hbody
    have hskip := writes_skip (c := c) (show pos + jumpIfSize ≤ capacity by omega) hlen hbody
    simp only [write, marks, bytes, hfinish]
    refine hskip.bind (q := finish) ?_ (ih hexit hroom).map
    rw [List.length_append, length_jumpIfTo, ← Nat.add_assoc]
    exact hlen
  | choose c no yes next ihNo ihYes ih =>
    have hnoStart := le_stop (pos + jumpIfSize) no
    have hyesStart := le_stop (no.stop (pos + jumpIfSize) + jumpSize) yes
    have hnext := le_stop (yes.stop (no.stop (pos + jumpIfSize) + jumpSize)) next
    simp only [write, marks, bytes, stop] at hroom ⊢
    generalize hnoEnd : no.stop (pos + jumpIfSize) = noEnd at *
    generalize hfinish : yes.stop (noEnd + jumpSize) = finish at *
    have hno : Writes (l + 2) (aim (aim t l finish) (l + 1) (noEnd + jumpSize)) _ _ _
        (pos + jumpIfSize) capacity := ihNo (by omega) (by omega)
    have hyes : Writes (l + 1) (aim t l finish) _ _ _ (noEnd + jumpSize) capacity :=
      ihYes (by omega) (by omega)
    rw [aim_of_lt _ _ (Nat.lt_succ_of_lt hexit), aim_of_lt t _ hexit] at hno
    rw [aim_of_lt t _ hexit] at hyes
    have hnoLen := hnoEnd ▸ length_bytes base (t exitLabel) (pos + jumpIfSize) no
    have hyesLen := hfinish ▸ length_bytes base (t exitLabel) (noEnd + jumpSize) yes
    refine (writes_fork (c := c) (by omega) hnoLen hyesLen hno hyes).bind (q := finish) ?_
      (ih hexit hroom).map
    simp only [List.length_append, length_jumpIfTo, length_jumpTo]
    omega
  | select table index bodies next ih =>
    have hnext := le_stop (selectEnd pos table index bodies) next
    exact (writes_select base hexit (Nat.le_trans hnext hroom)).bind
      (length_selectBytes base (t exitLabel) pos table index bodies) (ih hexit hroom)

end Code

end PixelPipeline
