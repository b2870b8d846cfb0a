/-
# Proofs.Descriptions — descriptions tell keys apart

A description is a row of sections between colons, of which some are left out.
Sections begin in different ways, so it can be seen which of them are there
(`sections_inj`), and each of them tells the features that it was written for.
What is left out is what the normal form of a configuration leaves unset.
-/
import Mathlib.Data.List.Forall2
import PixelPipeline.Cache.Basic
import PixelPipeline.Proofs.NormalForm

namespace PixelPipeline

/-! ## Texts put together -/

/-- Texts without a delimiter are told apart where it stands between them. -/
theorem intercalate_inj {c : Char} {ls ls' : List (List Char)} (hls : ∀ l ∈ ls, c ∉ l)
    (hls' : ∀ l ∈ ls', c ∉ l) (hne : ls ≠ []) (hne' : ls' ≠ [])
    (h : [c].intercalate ls = [c].intercalate ls') : ls = ls' := by
  rw [← List.splitOn_intercalate c hls hne, h, List.splitOn_intercalate c hls' hne']

theorem notMem_intercalate {c : Char} {sep : List Char} (hsep : c ∉ sep) {ls : List (List Char)}
    (h : ∀ l ∈ ls, c ∉ l) : c ∉ sep.intercalate ls := by
  induction ls with
  | nil => exact List.not_mem_nil
  | cons l rest ih =>
    obtain ⟨hl, hrest⟩ := List.forall_mem_cons.mp h
    cases rest with
    | nil => rwa [List.intercalate_singleton]
    | cons l' rest =>
      rw [List.intercalate_cons_cons, List.mem_append, List.mem_append, not_or, not_or]
      exact ⟨⟨hl, hsep⟩, ih hrest⟩

/-- The first word of a text is read as far as the first blank, here in a separator. -/
theorem firstWord_inj {a a' sep rest rest' : String} {before after : List Char}
    (hsep : sep.toList = before ++ ' ' :: after) (hbefore : ' ' ∉ before) (h : ' ' ∉ a.toList)
    (h' : ' ' ∉ a'.toList) (heq : a ++ (sep ++ rest) = a' ++ (sep ++ rest')) : a = a' := by
  have hword {a : String} (h : ' ' ∉ a.toList) (rest : String) :
      (a ++ (sep ++ rest)).toList.takeWhile (· != ' ') = a.toList ++ before := by
    have hnone : ∀ x ∈ a.toList ++ before, (x != ' ') = true := by
      intro x hx
      refine bne_iff_ne.mpr fun e => ?_
      rcases List.mem_append.mp hx with hx | hx
      · exact h (e ▸ hx)
      · exact hbefore (e ▸ hx)
    rw [String.toList_append, String.toList_append, hsep, List.append_assoc, ← List.append_assoc,
      List.takeWhile_append_of_pos hnone, List.cons_append, List.takeWhile_cons_of_neg (by simp),
      List.append_nil]
  have hwords := hword h rest
  rw [heq, hword h' rest', List.append_cancel_right_eq] at hwords
  exact String.toList_inj.mp hwords.symm

/-- How a section begins. -/
def sectionLabel (s : Bool × String) : List Char := s.2.toList.take 3

/-- The sections that are there. -/
def shown (sections : List (Bool × String)) : List String :=
  (sections.filter (·.1)).map (·.2)

theorem shown_cons (on : Bool) (text : String) (sections : List (Bool × String)) :
    shown ((on, text) :: sections) = Features.flagPart on text ++ shown sections := by
  cases on <;> rfl

theorem label_of_shown {sections : List (Bool × String)} {text : String}
    (h : text ∈ shown sections) : text.toList.take 3 ∈ sections.map sectionLabel := by
  obtain ⟨s, hs, rfl⟩ := List.mem_map.mp h
  exact List.mem_map.mpr ⟨s, List.mem_of_mem_filter hs, rfl⟩

/-- Rows of sections that begin in the same way, no two of one row alike, show the same
only if the same sections are there and say the same. -/
theorem sections_inj {ss ss' : List (Bool × String)} (hlabels : ss.map sectionLabel = ss'.map sectionLabel)
    (hnodup : (ss.map sectionLabel).Nodup) (h : shown ss = shown ss') :
    List.Forall₂ (fun s s' => s.1 = s'.1 ∧ (s.1 = true → s.2 = s'.2)) ss ss' := by
  induction ss generalizing ss' with
  | nil =>
    cases ss' with
    | nil => exact .nil
    | cons s' rest' => cases hlabels
  | cons s rest ih =>
    obtain ⟨on, text⟩ := s
    cases ss' with
    | nil => cases hlabels
    | cons s' rest' =>
      obtain ⟨on', text'⟩ := s'
      obtain ⟨hlabel, hrests⟩ := List.cons.inj hlabels
      obtain ⟨hfresh, hothers⟩ := List.nodup_cons.mp hnodup
      rw [shown_cons, shown_cons] at h
      -- A section that only one of the rows shows would be a later one of the other.
      have hlater (hmem : text ∈ shown rest') : False :=
        hfresh (show text.toList.take 3 ∈ rest.map sectionLabel from hrests ▸ label_of_shown hmem)
      have hlater' (hmem : text' ∈ shown rest) : False :=
        hfresh (hlabel ▸ label_of_shown hmem)
      cases on with
      | true =>
        cases on' with
        | true =>
          obtain ⟨htext, hrest⟩ := List.cons.inj h
          exact .cons ⟨rfl, fun _ => htext⟩ (ih hrests hothers hrest)
        | false =>
          have hshown : text :: shown rest = shown rest' := h
          exact (hlater (hshown ▸ List.mem_cons_self)).elim
      | false =>
        cases on' with
        | true =>
          have hshown : shown rest = text' :: shown rest' := h
          exact (hlater' (hshown ▸ List.mem_cons_self)).elim
        | false => exact .cons ⟨rfl, fun h => absurd h Bool.false_ne_true⟩ (ih hrests hothers h)

/-! ## Names of values -/

theorem Comparison.tag_inj {a b : Comparison} (h : a.tag = b.tag) : a = b := by
  cases a <;> cases b <;> first | rfl | simp [tag] at h

theorem StencilAction.tag_inj {a b : StencilAction} (h : a.tag = b.tag) : a = b := by
  cases a <;> cases b <;> first | rfl | simp [tag] at h

theorem PixelFormat.tag_inj {a b : PixelFormat} (h : a.tag = b.tag) : a = b := by
  cases a <;> cases b <;> first | rfl | simp [tag] at h

theorem BlendEquation.tag_inj {a b : BlendEquation} (h : a.tag = b.tag) : a = b := by
  cases a <;> cases b <;> first | rfl | simp [tag] at h

theorem BlendFactor.tag_inj {a b : BlendFactor} (h : a.tag = b.tag) : a = b := by
  cases a <;> cases b <;> first | rfl | simp [tag] at h

theorem Comparison.length_tag (c : Comparison) : c.tag.toList.length = 2 := by
  cases c <;> simp [tag]

theorem StencilAction.length_tag (a : StencilAction) : a.tag.toList.length = 1 := by
  cases a <;> simp [tag]

/-- A byte is written with two digits. -/
theorem toList_upperHex {n : Nat} (h : n < 256) : (upperHex 2 n).toList =
    [(Nat.digitChar (n / 16)).toUpper, (Nat.digitChar (n % 16)).toUpper] := by
  have hlow : n % 16 < 16 := Nat.mod_lt _ (by decide)
  rw [upperHex, lowerHex, String.toList_map, String.toList_ofList]
  by_cases hn : n < 16
  · rw [Nat.toDigits_of_lt_base hn, Nat.div_eq_of_lt hn, Nat.mod_eq_of_lt hn]
    rfl
  · have hdigits := Nat.toDigits_append_toDigits (b := 16) (n := n / 16) (d := n % 16) (by decide)
      (by omega) hlow
    rw [Nat.toDigits_of_lt_base (by omega), Nat.toDigits_of_lt_base hlow, Nat.div_add_mod] at hdigits
    rw [← hdigits]
    rfl

theorem upperHex_inj {a b : BitVec 8}
    (h : (upperHex 2 a.toNat).toList = (upperHex 2 b.toNat).toList) : a = b := by
  have hdigit : ∀ i j : Fin 16,
      (Nat.digitChar i).toUpper = (Nat.digitChar j).toUpper → i = j := by decide
  have ha : a.toNat < 256 := a.isLt
  have hb : b.toNat < 256 := b.isLt
  rw [toList_upperHex ha, toList_upperHex hb, List.cons.injEq, List.cons.injEq] at h
  have hhigh := hdigit ⟨a.toNat / 16, by omega⟩ ⟨b.toNat / 16, by omega⟩ h.1
  have hlow := hdigit ⟨a.toNat % 16, by omega⟩ ⟨b.toNat % 16, by omega⟩ h.2.1
  rw [Fin.mk.injEq] at hhigh hlow
  apply BitVec.eq_of_toNat_eq
  omega

/-! ### Delimiters

No name has a colon, a comma or a blank in it. -/

section

variable {c : Char} (h : c = ':' ∨ c = ',' ∨ c = ' ')

include h

theorem Comparison.notMem_tag (a : Comparison) : c ∉ a.tag.toList := by
  rcases h with rfl | rfl | rfl <;> cases a <;> simp [tag]

theorem StencilAction.notMem_tag (a : StencilAction) : c ∉ a.tag.toList := by
  rcases h with rfl | rfl | rfl <;> cases a <;> simp [tag]

theorem PixelFormat.notMem_tag (f : PixelFormat) : c ∉ f.tag.toList := by
  rcases h with rfl | rfl | rfl <;> cases f <;> simp [tag]

theorem BlendEquation.notMem_tag (e : BlendEquation) : c ∉ e.tag.toList := by
  rcases h with rfl | rfl | rfl <;> cases e <;> simp [tag]

theorem BlendFactor.notMem_tag (f : BlendFactor) : c ∉ f.tag.toList := by
  rcases h with rfl | rfl | rfl <;> cases f <;> simp [tag]

theorem Features.notMem_referencePart (reference : BitVec 8) (masked : Bool) :
    c ∉ (Features.referencePart reference masked).toList := by
  have hdigit : ∀ i : Fin 16, c ≠ (Nat.digitChar i).toUpper := by
    rcases h with rfl | rfl | rfl <;> decide
  have hlt : reference.toNat < 256 := reference.isLt
  have hhigh := hdigit ⟨reference.toNat / 16, by omega⟩
  have hlow := hdigit ⟨reference.toNat % 16, by omega⟩
  rw [Features.referencePart, String.toList_append, toList_upperHex hlt]
  rcases h with rfl | rfl | rfl <;> cases masked <;> simp [hhigh, hlow]

end

/-! ## What is left unset -/

theorem AlphaForm.of_always {test : Option AlphaTest} {mask : BitVec 8}
    (h : (AlphaForm.of test mask).func = .always) :
    (AlphaForm.of test mask).reference = 0 ∧ (AlphaForm.of test mask).masked = false := by
  cases test with
  | none => exact ⟨rfl, rfl⟩
  | some t =>
    simp only [AlphaForm.of_some] at h ⊢
    split at h
    · rename_i hcompares
      have hfunc : t.func = .always := h
      rw [hfunc] at hcompares
      cases hcompares
    · rename_i hcompares
      rw [if_neg hcompares]
      exact ⟨rfl, rfl⟩

theorem Blend.normal_factors {b : Blend} {s : DrawState}
    (h : (b.normal s).equation.usesFactors = false) :
    (b.normal s).src = .otherColor ∧ (b.normal s).dst = .otherColor := by
  rw [Blend.normal_eq] at h ⊢
  split at h
  · rename_i hfactors
    cases hfactors.symm.trans h
  · rename_i hfactors
    rw [if_neg hfactors]
    exact ⟨rfl, rfl⟩

/-! ## Sections -/

namespace Features

variable (f : Features)

/-- The sections behind the format, each with whether it is there. -/
def sections : List (Bool × String) :=
  [(f.clearMode, "CLEAR" ++ (if f.colorClear then "C" else "") ++
      (if f.stencilClear then "S" else "") ++ (if f.depthClear then "Z" else "")),
    (f.depthRange, "ZRANGE"),
    (f.alphaFunc != .always, "AT=" ++ f.alphaFunc.tag ++ referencePart f.alphaRef f.alphaMasked),
    (f.colorTest, "CT"),
    (f.stencilTest, "ST=" ++ f.stencilFunc.tag ++ referencePart f.stencilRef f.stencilMasked ++
      "(" ++ f.stencilFail.tag ++ "," ++ f.depthFail.tag ++ "," ++ f.depthPass.tag ++ ")"),
    (f.depthFunc != .always, "ZT=" ++ f.depthFunc.tag),
    (f.depthWrite && !f.clearMode, "ZW"),
    (f.fog, "FOG"),
    (f.blend, if f.blendEquation.usesFactors then
        "BLEND(" ++ f.blendEquation.tag ++ "," ++ f.blendSrc.tag ++ "," ++ f.blendDst.tag ++ ")"
      else "BLEND(" ++ f.blendEquation.tag ++ ")"),
    (f.dither, "DITHER"),
    (f.rasterOp, "LOGIC"),
    (f.writeMasked, "MASK"),
    (!f.standardStride, "STRIDE")]

theorem parts_eq : f.parts = f.format.tag :: shown f.sections := by
  have hnil : shown [] = [] := rfl
  simp only [parts, sections, shown_cons, hnil, alphaPart, stencilPart, depthPart, blendPart,
    List.append_assoc, List.cons_append, List.nil_append, List.append_nil]
  rfl

/-- How the sections begin, whatever they say. -/
theorem labels_sections : f.sections.map sectionLabel =
    [['C', 'L', 'E'], ['Z', 'R', 'A'], ['A', 'T', '='], ['C', 'T'], ['S', 'T', '='], ['Z', 'T', '='],
      ['Z', 'W'], ['F', 'O', 'G'], ['B', 'L', 'E'], ['D', 'I', 'T'], ['L', 'O', 'G'],
      ['M', 'A', 'S'], ['S', 'T', 'R']] := by
  cases h : f.blendEquation.usesFactors <;>
    simp [sections, sectionLabel, String.toList_append, h]

theorem notMem_optional {c : Char} {text : String} (h : c ∉ text.toList) (on : Bool) :
    c ∉ (if on then text else "").toList := by
  cases on
  · exact List.not_mem_nil
  · exact h

/-- No section has a colon or a blank. -/
theorem notMem_parts {c : Char} (hc : c = ':' ∨ c = ' ') {part : String} (h : part ∈ f.parts) :
    c ∉ part.toList := by
  have hname : c = ':' ∨ c = ',' ∨ c = ' ' := hc.imp_right .inr
  have hsections : ∀ s ∈ f.sections, c ∉ s.2.toList := by
    rcases hc with rfl | rfl <;> cases hblend : f.blendEquation.usesFactors <;>
      simp [sections, String.toList_append, notMem_optional, Comparison.notMem_tag hname,
        StencilAction.notMem_tag hname, BlendEquation.notMem_tag hname,
        BlendFactor.notMem_tag hname, notMem_referencePart hname, hblend]
  rw [parts_eq, List.mem_cons] at h
  rcases h with rfl | h
  · exact f.format.notMem_tag hname
  · obtain ⟨s, hs, rfl⟩ := List.mem_map.mp h
    exact hsections s (List.mem_of_mem_filter hs)

/-! ### What a section says -/

theorem clearText_inj {color stencil depth color' stencil' depth' : Bool}
    (h : "CLEAR" ++ (if color then "C" else "") ++ (if stencil then "S" else "") ++
        (if depth then "Z" else "") =
      "CLEAR" ++ (if color' then "C" else "") ++ (if stencil' then "S" else "") ++
        (if depth' then "Z" else "")) : color = color' ∧ stencil = stencil' ∧ depth = depth' := by
  revert h
  revert color stencil depth color' stencil' depth'
  decide

/-- A reference is read as far as its mark, if nothing behind it looks like one. -/
theorem reference_inj {reference reference' : BitVec 8} {masked masked' : Bool} {rest rest' : List Char}
    (hrest : rest.head? ≠ some 'M') (hrest' : rest'.head? ≠ some 'M')
    (h : (referencePart reference masked).toList ++ rest =
      (referencePart reference' masked').toList ++ rest') :
    reference = reference' ∧ masked = masked' ∧ rest = rest' := by
  simp only [referencePart, String.toList_append, List.append_assoc] at h
  obtain ⟨hdigits, h⟩ := List.append_inj h (by
    rw [toList_upperHex reference.isLt, toList_upperHex reference'.isLt]
    rfl)
  refine ⟨upperHex_inj hdigits, ?_⟩
  cases masked <;> cases masked'
  · exact ⟨rfl, h⟩
  · have hm : rest = 'M' :: rest' := h
    exact absurd (congrArg List.head? hm) hrest
  · have hm : 'M' :: rest = rest' := h
    exact absurd (congrArg List.head? hm.symm) hrest'
  · exact ⟨rfl, List.tail_eq_of_cons_eq h⟩

theorem alphaText_inj {func func' : Comparison} {reference reference' : BitVec 8}
    {masked masked' : Bool}
    (h : "AT=" ++ func.tag ++ referencePart reference masked =
      "AT=" ++ func'.tag ++ referencePart reference' masked') :
    func = func' ∧ reference = reference' ∧ masked = masked' := by
  have hlist := congrArg String.toList h
  simp only [String.toList_append, List.append_assoc, List.append_cancel_left_eq] at hlist
  obtain ⟨htag, href⟩ := List.append_inj hlist (by rw [func.length_tag, func'.length_tag])
  rw [← List.append_nil (referencePart reference masked).toList,
    ← List.append_nil (referencePart reference' masked').toList] at href
  obtain ⟨href, hmasked, -⟩ := reference_inj (by simp) (by simp) href
  exact ⟨Comparison.tag_inj (String.toList_inj.mp htag), href, hmasked⟩

theorem stencilText_inj {func func' : Comparison} {reference reference' : BitVec 8}
    {masked masked' : Bool} {fail fail' depthFail depthFail' depthPass depthPass' : StencilAction}
    (h : "ST=" ++ func.tag ++ referencePart reference masked ++
        "(" ++ fail.tag ++ "," ++ depthFail.tag ++ "," ++ depthPass.tag ++ ")" =
      "ST=" ++ func'.tag ++ referencePart reference' masked' ++
        "(" ++ fail'.tag ++ "," ++ depthFail'.tag ++ "," ++ depthPass'.tag ++ ")") :
    func = func' ∧ reference = reference' ∧ masked = masked' ∧ fail = fail' ∧
      depthFail = depthFail' ∧ depthPass = depthPass' := by
  have hlist := congrArg String.toList h
  simp only [String.toList_append, List.append_assoc, List.append_cancel_left_eq] at hlist
  obtain ⟨htag, href⟩ := List.append_inj hlist (by rw [func.length_tag, func'.length_tag])
  obtain ⟨href, hmasked, hactions⟩ := reference_inj (by simp) (by simp) href
  rw [List.append_cancel_left_eq] at hactions
  obtain ⟨hfail, hactions⟩ := List.append_inj hactions (by rw [fail.length_tag, fail'.length_tag])
  rw [List.append_cancel_left_eq] at hactions
  obtain ⟨hdepthFail, hactions⟩ :=
    List.append_inj hactions (by rw [depthFail.length_tag, depthFail'.length_tag])
  rw [List.append_cancel_left_eq] at hactions
  have hdepthPass := List.append_inj_left' hactions rfl
  exact ⟨Comparison.tag_inj (String.toList_inj.mp htag), href, hmasked,
    StencilAction.tag_inj (String.toList_inj.mp hfail),
    StencilAction.tag_inj (String.toList_inj.mp hdepthFail),
    StencilAction.tag_inj (String.toList_inj.mp hdepthPass)⟩

theorem depthText_inj {func func' : Comparison} (h : "ZT=" ++ func.tag = "ZT=" ++ func'.tag) :
    func = func' := by
  have hlist := congrArg String.toList h
  simp only [String.toList_append, List.append_cancel_left_eq] at hlist
  exact Comparison.tag_inj (String.toList_inj.mp hlist)

/-- The names in a blend, of which the factors may be left out. -/
def blendNames (equation : BlendEquation) (src dst : BlendFactor) : List (List Char) :=
  if equation.usesFactors then [equation.tag.toList, src.tag.toList, dst.tag.toList]
  else [equation.tag.toList]

theorem blendNames_ne_nil (equation : BlendEquation) (src dst : BlendFactor) :
    blendNames equation src dst ≠ [] := by
  rw [blendNames]
  split <;> exact List.cons_ne_nil _ _

theorem head?_blendNames (equation : BlendEquation) (src dst : BlendFactor) :
    (blendNames equation src dst).head? = some equation.tag.toList := by
  rw [blendNames]
  split <;> rfl

theorem comma_notMem_blendNames (equation : BlendEquation) (src dst : BlendFactor) :
    ∀ name ∈ blendNames equation src dst, ',' ∉ name := by
  have hc : ',' = ':' ∨ ',' = ',' ∨ ',' = ' ' := .inr (.inl rfl)
  rw [blendNames]
  split <;> simp [BlendEquation.notMem_tag hc, BlendFactor.notMem_tag hc]

theorem toList_blendText (equation : BlendEquation) (src dst : BlendFactor) :
    (if equation.usesFactors then
        "BLEND(" ++ equation.tag ++ "," ++ src.tag ++ "," ++ dst.tag ++ ")"
      else "BLEND(" ++ equation.tag ++ ")").toList =
      "BLEND(".toList ++ ([','].intercalate (blendNames equation src dst) ++ [')']) := by
  rw [blendNames]
  split <;> simp [String.toList_append, List.intercalate]

theorem blendText_inj {equation equation' : BlendEquation} {src src' dst dst' : BlendFactor}
    (h : (if equation.usesFactors then
        "BLEND(" ++ equation.tag ++ "," ++ src.tag ++ "," ++ dst.tag ++ ")"
      else "BLEND(" ++ equation.tag ++ ")") =
      if equation'.usesFactors then
        "BLEND(" ++ equation'.tag ++ "," ++ src'.tag ++ "," ++ dst'.tag ++ ")"
      else "BLEND(" ++ equation'.tag ++ ")") :
    equation = equation' ∧ (equation.usesFactors = true → src = src' ∧ dst = dst') := by
  have hlist := congrArg String.toList h
  rw [toList_blendText, toList_blendText, List.append_cancel_left_eq,
    List.append_cancel_right_eq] at hlist
  have hnames := intercalate_inj (comma_notMem_blendNames _ _ _) (comma_notMem_blendNames _ _ _)
    (blendNames_ne_nil _ _ _) (blendNames_ne_nil _ _ _) hlist
  have hequation : equation = equation' := by
    have hhead := congrArg List.head? hnames
    rw [head?_blendNames, head?_blendNames, Option.some.injEq] at hhead
    exact BlendEquation.tag_inj (String.toList_inj.mp hhead)
  subst hequation
  refine ⟨rfl, fun hfactors => ?_⟩
  rw [blendNames, blendNames, if_pos hfactors, if_pos hfactors] at hnames
  simp only [List.cons.injEq, and_true, true_and] at hnames
  exact ⟨BlendFactor.tag_inj (String.toList_inj.mp hnames.1),
    BlendFactor.tag_inj (String.toList_inj.mp hnames.2)⟩

/-! ## Descriptions -/

/-- What a description leaves out is unset. -/
structure Normal : Prop where
  alpha : f.alphaFunc = .always → f.alphaRef = 0 ∧ f.alphaMasked = false
  stencil : f.stencilTest = false → f.stencilFunc = .always ∧ f.stencilRef = 0 ∧
    f.stencilMasked = false ∧ f.stencilFail = .keep ∧ f.depthFail = .keep ∧ f.depthPass = .keep
  blend : f.blend = false → f.blendEquation = .add ∧ f.blendSrc = .otherColor ∧
    f.blendDst = .otherColor
  factors : f.blendEquation.usesFactors = false → f.blendSrc = .otherColor ∧
    f.blendDst = .otherColor

theorem normal_ofConfig (c : Config) (s : DrawState) : (ofConfig c s).Normal := by
  rw [ofConfig_eq, NormalForm.features, NormalForm.mode_of]
  cases c.clear with
  | some flags =>
    exact ⟨fun _ => ⟨rfl, rfl⟩, fun _ => ⟨rfl, rfl, rfl, rfl, rfl, rfl⟩, fun _ => ⟨rfl, rfl, rfl⟩,
      fun _ => ⟨rfl, rfl⟩⟩
  | none =>
    refine ⟨AlphaForm.of_always, fun h => ?_, fun h => ?_, fun h => ?_⟩
    · cases ht : c.stencilTest with
      | none =>
        simp only [Option.elim_none, DrawForm.features, DrawForm.of, ht]
        exact ⟨rfl, rfl, rfl, rfl, rfl, rfl⟩
      | some t => simp [stencilTest, DrawForm.features, DrawForm.of, ht] at h
    · cases hb : c.blend with
      | none =>
        simp only [Option.elim_none, DrawForm.features, DrawForm.of, hb]
        exact ⟨rfl, rfl, rfl⟩
      | some b => simp [DrawForm.features, DrawForm.of, hb] at h
    · simp only [Option.elim_none, DrawForm.features, DrawForm.of] at h ⊢
      cases hb : c.blend with
      | none => exact ⟨rfl, rfl⟩
      | some b =>
        rw [hb] at h
        exact Blend.normal_factors h

section

variable {f g : Features}

/-- The flags that clears and other draws share, read off what is said of either. -/
theorem flags_eq (hmode : f.clearMode = g.clearMode)
    (hclear : f.clearMode = true → f.colorClear = g.colorClear ∧ f.stencilClear = g.stencilClear ∧
      f.depthClear = g.depthClear)
    (hcolor : f.colorTest = g.colorTest) (hstencil : f.stencilTest = g.stencilTest)
    (hwrite : (f.depthWrite && !f.clearMode) = (g.depthWrite && !g.clearMode)) :
    f.colorFlag = g.colorFlag ∧ f.stencilFlag = g.stencilFlag ∧ f.depthFlag = g.depthFlag := by
  unfold colorClear stencilClear depthClear at hclear
  unfold colorTest at hcolor
  unfold stencilTest at hstencil
  unfold depthWrite at hwrite
  rw [← hmode] at hclear hcolor hstencil hwrite
  cases hm : f.clearMode with
  | true => simpa [hm] using hclear hm
  | false => exact ⟨by simpa [hm] using hcolor, by simpa [hm] using hstencil, by simpa [hm] using hwrite⟩

variable (hf : f.Normal) (hg : g.Normal)

include hf hg

theorem alpha_eq (hon : (f.alphaFunc != .always) = (g.alphaFunc != .always))
    (h : (f.alphaFunc != .always) = true → f.alphaFunc = g.alphaFunc ∧ f.alphaRef = g.alphaRef ∧
      f.alphaMasked = g.alphaMasked) :
    f.alphaFunc = g.alphaFunc ∧ f.alphaRef = g.alphaRef ∧ f.alphaMasked = g.alphaMasked := by
  by_cases hfunc : f.alphaFunc = .always
  · have hfunc' : g.alphaFunc = .always := by
      rwa [hfunc, bne_self_eq_false, eq_comm, bne_eq_false_iff_eq] at hon
    obtain ⟨href, hmasked⟩ := hf.alpha hfunc
    obtain ⟨href', hmasked'⟩ := hg.alpha hfunc'
    exact ⟨hfunc.trans hfunc'.symm, href.trans href'.symm, hmasked.trans hmasked'.symm⟩
  · exact h (bne_iff_ne.mpr hfunc)

theorem stencil_eq (hon : f.stencilTest = g.stencilTest)
    (h : f.stencilTest = true → f.stencilFunc = g.stencilFunc ∧ f.stencilRef = g.stencilRef ∧
      f.stencilMasked = g.stencilMasked ∧ f.stencilFail = g.stencilFail ∧
      f.depthFail = g.depthFail ∧ f.depthPass = g.depthPass) :
    f.stencilFunc = g.stencilFunc ∧ f.stencilRef = g.stencilRef ∧
      f.stencilMasked = g.stencilMasked ∧ f.stencilFail = g.stencilFail ∧
      f.depthFail = g.depthFail ∧ f.depthPass = g.depthPass := by
  cases htest : f.stencilTest with
  | true => exact h htest
  | false =>
    obtain ⟨h₁, h₂, h₃, h₄, h₅, h₆⟩ := hf.stencil htest
    obtain ⟨h₁', h₂', h₃', h₄', h₅', h₆'⟩ := hg.stencil (hon.symm.trans htest)
    exact ⟨h₁.trans h₁'.symm, h₂.trans h₂'.symm, h₃.trans h₃'.symm, h₄.trans h₄'.symm,
      h₅.trans h₅'.symm, h₆.trans h₆'.symm⟩

theorem blend_eq (hon : f.blend = g.blend)
    (h : f.blend = true → f.blendEquation = g.blendEquation ∧
      (f.blendEquation.usesFactors = true → f.blendSrc = g.blendSrc ∧ f.blendDst = g.blendDst)) :
    f.blendEquation = g.blendEquation ∧ f.blendSrc = g.blendSrc ∧ f.blendDst = g.blendDst := by
  cases hblend : f.blend with
  | true =>
    obtain ⟨hequation, hfactors⟩ := h hblend
    cases huses : f.blendEquation.usesFactors with
    | true => exact ⟨hequation, hfactors huses⟩
    | false =>
      obtain ⟨hsrc, hdst⟩ := hf.factors huses
      obtain ⟨hsrc', hdst'⟩ := hg.factors (hequation ▸ huses)
      exact ⟨hequation, hsrc.trans hsrc'.symm, hdst.trans hdst'.symm⟩
  | false =>
    obtain ⟨h₁, h₂, h₃⟩ := hf.blend hblend
    obtain ⟨h₁', h₂', h₃'⟩ := hg.blend (hon.symm.trans hblend)
    exact ⟨h₁.trans h₁'.symm, h₂.trans h₂'.symm, h₃.trans h₃'.symm⟩

end

/-- Descriptions tell normal features apart. -/
theorem Normal.describe_inj {f g : Features} (hf : f.Normal) (hg : g.Normal)
    (h : f.describe = g.describe) : f = g := by
  have hparts : f.parts = g.parts := by
    have hlist := congrArg String.toList h
    rw [describe, describe, String.toList_intercalate, String.toList_intercalate] at hlist
    have hcolon (f : Features) : ∀ l ∈ f.parts.map String.toList, ':' ∉ l := by
      intro l hl
      obtain ⟨part, hpart, rfl⟩ := List.mem_map.mp hl
      exact f.notMem_parts (.inl rfl) hpart
    have hne (f : Features) : f.parts.map String.toList ≠ [] := by
      rw [parts_eq]
      exact List.cons_ne_nil _ _
    exact List.map_injective_iff.mpr (fun _ _ => String.toList_inj.mp)
      (intercalate_inj (hcolon f) (hcolon g) (hne f) (hne g) hlist)
  rw [parts_eq, parts_eq] at hparts
  obtain ⟨hformat, hshown⟩ := List.cons.inj hparts
  have hsections := sections_inj (f.labels_sections.trans g.labels_sections.symm)
    (by rw [labels_sections]; decide) hshown
  simp only [sections, List.forall₂_cons, List.forall₂_nil_left_iff] at hsections
  obtain ⟨⟨hclear, hclears⟩, ⟨hrange, -⟩, ⟨halpha, halphas⟩, ⟨hcolor, -⟩, ⟨hstencil, hstencils⟩,
    ⟨hdepth, hdepths⟩, ⟨hwrite, -⟩, ⟨hfog, -⟩, ⟨hblend, hblends⟩, ⟨hdither, -⟩, ⟨hrop, -⟩,
    ⟨hmask, -⟩, ⟨hstride, -⟩, -⟩ := hsections
  obtain ⟨hcolorFlag, hstencilFlag, hdepthFlag⟩ := flags_eq hclear
    (fun h => clearText_inj (hclears h)) hcolor hstencil hwrite
  obtain ⟨halphaFunc, halphaRef, halphaMasked⟩ := alpha_eq hf hg halpha
    fun h => alphaText_inj (halphas h)
  obtain ⟨hstencilFunc, hstencilRef, hstencilMasked, hfail, hdepthFail, hdepthPass⟩ :=
    stencil_eq hf hg hstencil fun h => stencilText_inj (hstencils h)
  have hdepthFunc : f.depthFunc = g.depthFunc := by
    by_cases h : f.depthFunc = .always
    · rw [h, bne_self_eq_false, eq_comm, bne_eq_false_iff_eq] at hdepth
      rw [h, hdepth]
    · exact depthText_inj (hdepths (bne_iff_ne.mpr h))
  obtain ⟨hequation, hsrc, hdst⟩ := blend_eq hf hg hblend fun h => blendText_inj (hblends h)
  cases f
  cases g
  simp only [Features.mk.injEq]
  exact ⟨hclear, hcolorFlag, hstencilFlag, hdepthFlag, hrange, halphaFunc, hdepthFunc, hstencilFunc,
    PixelFormat.tag_inj hformat, halphaRef, hstencilRef, hblend, hequation, hsrc, hdst, halphaMasked,
    hstencilMasked, hdither, hrop, hfog, by simpa using hstride, hmask, hfail, hdepthFail, hdepthPass⟩

/-- A description is one word. -/
theorem blank_notMem_describe : ' ' ∉ f.describe.toList := by
  rw [describe, String.toList_intercalate]
  refine notMem_intercalate (by decide) fun l hl => ?_
  obtain ⟨part, hpart, rfl⟩ := List.mem_map.mp hl
  exact f.notMem_parts (.inr rfl) hpart

end Features

namespace Key

/-- Keys of configurations are described alike only if their words are the same.  So
are they in a line of the log, and in what is said of a code pointer. -/
theorem described_exactly (c c' : Config) (s s' : DrawState) :
    let k := ofConfig c s
    let k' := ofConfig c' s'
    (k.describe = k'.describe ↔ k.word = k'.word) ∧
    (∀ f f', (CacheEvent.compiled k f).line = (CacheEvent.compiled k' f').line → k.word = k'.word) ∧
    (∀ e e', (CacheEvent.failed k e).line = (CacheEvent.failed k' e').line → k.word = k'.word) ∧
    ∀ r r' offset offset' text, Cache.describeEntry offset ⟨k, r⟩ = some text →
      Cache.describeEntry offset' ⟨k', r'⟩ = some text → k.word = k'.word := by
  intro k k'
  have hword (h : k.describe = k'.describe) : k.word = k'.word := by
    rw [describe, describe, features_ofConfig, features_ofConfig] at h
    exact congrArg Features.pack
      ((Features.normal_ofConfig c s).describe_inj (Features.normal_ofConfig c' s') h)
  have hblank (k : Key) : ' ' ∉ k.describe.toList := k.features.blank_notMem_describe
  have hcolon : ": ".toList = [':'] ++ ' ' :: [] := rfl
  refine ⟨⟨hword, fun h => ?_⟩, fun f f' h => ?_, fun e e' h => ?_, fun r r' o o' text h h' => ?_⟩
  · rw [describe, describe, features, features, h]
  · unfold CacheEvent.line at h
    simp only [String.append_assoc, String.append_right_inj] at h
    have hsep : " at 0x".toList = [] ++ ' ' :: ['a', 't', ' ', '0', 'x'] := rfl
    exact hword (firstWord_inj hsep List.not_mem_nil (hblank k) (hblank k') h)
  · unfold CacheEvent.line at h
    simp only [String.append_assoc, String.append_right_inj] at h
    exact hword (firstWord_inj hcolon (by decide) (hblank k) (hblank k') h)
  · unfold Cache.describeEntry at h h'
    cases r with
    | error e => cases h
    | ok f =>
      cases r' with
      | error e => cases h'
      | ok f' =>
        obtain ⟨stage, -, htext⟩ := Option.map_eq_some_iff.mp h
        obtain ⟨stage', -, htext'⟩ := Option.map_eq_some_iff.mp h'
        have htexts := htext.trans htext'.symm
        simp only [String.append_assoc] at htexts
        exact hword (firstWord_inj hcolon (by decide) (hblank k) (hblank k') htexts)

end Key

end PixelPipeline
