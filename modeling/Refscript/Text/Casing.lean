import Refscript.Text.CodePointSet

/-!
# Refscript.Text.Casing

Full Unicode case conversion of texts. A character may become several (`ß` becomes `SS`), and a
capital sigma at the end of a word has its own small form.
-/

namespace Refscript
namespace Text

/-- The characters `first`, `first + stride`, … up to `last`, with images that are `shift` further
on. -/
structure CaseRun where
  first : Nat
  last : Nat
  stride : Nat
  shift : Int

namespace CaseRun

/-- Runs in a row. For each of them there are four numbers: how far its start is from the start of
the one before, its length, its stride and its shift. -/
def ofGaps (start : Nat) : List Int → List CaseRun
  | gap :: length :: stride :: shift :: gaps =>
    let first := start + gap.toNat
    ⟨first, first + length.toNat, stride.toNat, shift⟩ :: ofGaps first gaps
  | _ => []

/-- The run from the images back. -/
def inverse (r : CaseRun) : CaseRun :=
  ⟨(r.first + r.shift).toNat, (r.last + r.shift).toNat, r.stride, -r.shift⟩

def image? (r : CaseRun) (n : Nat) : Option Nat :=
  if r.first ≤ n ∧ n ≤ r.last ∧ (n - r.first) % r.stride = 0 then some (n + r.shift).toNat else none

end CaseRun

/-- Capital letters and their small forms, from code point 128 on. -/
def capitalLetters : List CaseRun := CaseRun.ofGaps 0 [
  192,22,1,32,24,6,1,32,40,46,2,1,50,4,2,1,7,14,2,1,17,44,2,1,46,0,1,-121,1,4,2,1,8,0,1,210,1,2,2,
  1,4,0,1,206,1,0,1,1,2,1,1,205,2,0,1,1,3,0,1,79,1,0,1,202,1,0,1,203,1,0,1,1,2,0,1,205,1,0,1,207,
  2,0,1,211,1,0,1,209,1,0,1,1,4,0,1,211,1,0,1,213,2,0,1,214,1,4,2,1,6,0,1,218,1,0,1,1,2,0,1,218,3,
  0,1,1,2,0,1,218,1,0,1,1,2,1,1,217,2,2,2,1,4,0,1,219,1,0,1,1,4,0,1,1,8,0,1,2,3,0,1,2,3,0,1,2,3,
  14,2,1,17,16,2,1,19,0,1,2,3,0,1,1,2,0,1,-97,1,0,1,-56,1,38,2,1,40,0,1,-130,2,16,2,1,24,0,1,
  10795,1,0,1,1,2,0,1,-163,1,0,1,10792,3,0,1,1,2,0,1,-195,1,0,1,69,1,0,1,71,1,8,2,1,298,2,2,1,6,0,
  1,1,9,0,1,116,7,0,1,38,2,2,1,37,4,0,1,64,2,1,1,63,3,16,1,32,18,8,1,32,44,0,1,8,9,22,2,1,31,0,1,
  1,2,0,1,-7,1,0,1,1,3,2,1,-130,3,15,1,80,16,31,1,32,80,32,2,1,42,52,2,1,54,0,1,15,1,12,2,1,15,94,
  2,1,97,37,1,48,2927,37,1,7264,39,0,1,7264,6,0,1,7264,723,79,1,38864,80,5,1,8,2201,0,1,1,7,42,1,
  -3008,45,2,1,-3008,323,148,2,1,160,94,2,1,104,7,1,-8,16,5,1,-8,16,7,1,-8,16,7,1,-8,16,5,1,-8,17,
  6,2,-8,15,7,1,-8,80,1,1,-8,2,1,1,-74,14,3,1,-86,16,1,1,-8,2,1,1,-100,14,1,1,-8,2,1,1,-112,2,0,1,
  -7,12,1,1,-128,2,1,1,-126,312,0,1,28,46,15,1,16,35,0,1,1,819,25,1,26,1866,47,1,48,96,0,1,1,2,0,
  1,-10743,1,0,1,-3814,1,0,1,-10727,3,4,2,1,6,0,1,-10780,1,0,1,-10749,1,0,1,-10783,1,0,1,-10782,2,
  0,1,1,3,0,1,1,9,1,1,-10815,2,98,2,1,107,2,2,1,7,0,1,1,31054,44,2,1,64,26,2,1,162,12,2,1,16,60,2,
  1,71,2,2,1,4,0,1,-35332,1,8,2,1,13,0,1,1,2,0,1,-42280,3,2,2,1,6,18,2,1,20,0,1,-42308,1,0,1,
  -42319,1,0,1,-42315,1,0,1,-42305,1,0,1,-42308,2,0,1,-42258,1,0,1,-42282,1,0,1,-42261,1,0,1,928,
  1,14,2,1,16,0,1,-48,1,0,1,-42307,1,0,1,-35384,1,2,2,1,4,0,1,-42343,1,14,2,1,16,0,1,-42561,25,0,
  1,1,22316,25,1,32,1247,39,1,40,176,35,1,40,192,36,2,39,1,8,2,39,12,12,2,39,16,4,2,39,8,0,1,39,
  1771,50,1,64,208,21,1,32,2896,31,1,32,21920,31,1,32,96,24,1,27,31328,33,1,34]

def smallLetters : List CaseRun := capitalLetters.map CaseRun.inverse

/-- Further characters with a capital form of one character. -/
def upperRuns : List CaseRun := CaseRun.ofGaps 0 [
  181,0,1,743,124,0,1,-232,78,0,1,-300,70,0,1,-1,3,0,1,-1,3,0,1,-1,39,0,1,-1,339,0,1,84,125,0,1,
  -31,14,0,1,-62,1,0,1,-57,4,0,1,-47,1,0,1,-54,26,0,1,-86,1,0,1,-80,4,0,1,-96,6283,0,1,-6254,1,0,
  1,-6253,1,0,1,-6244,1,1,1,-6242,2,0,1,-6243,1,0,1,-6236,1,0,1,-6181,1,0,1,35266,531,0,1,-59,291,
  0,1,-7205]

/-- Characters with a small form of one character that has another capital form. -/
def lowerRuns : List CaseRun := CaseRun.ofGaps 0 [
  453,0,1,1,3,0,1,1,3,0,1,1,39,0,1,1,514,0,1,-60,6826,0,1,-7615,234,7,1,-8,16,7,1,-8,16,7,1,-8,20,
  0,1,-9,16,0,1,-9,48,0,1,-9,298,0,1,-7517,4,0,1,-8383,1,0,1,-8262]

/-- Characters whose capital form is the image, with a capital iota after it. -/
def iotaRuns : List CaseRun := CaseRun.ofGaps 0 [
  8064,7,1,-120,8,7,1,-128,8,7,1,-104,8,7,1,-112,8,7,1,-56,8,7,1,-64,10,0,1,8,1,0,1,-7202,1,0,1,
  -7214,8,0,1,-7211,6,0,1,8,1,0,1,-7212,1,0,1,-7227,8,0,1,-7221,38,0,1,8,1,0,1,-7242,1,0,1,-7269,
  8,0,1,-7251]

/-- Other characters whose capital form has several characters. -/
def upperExpansions : List (Nat × List Nat) := [
  (223,[83,83]),(329,[700,78]),(496,[74,780]),(912,[921,776,769]),(944,[933,776,769]),
  (1415,[1333,1362]),(7830,[72,817]),(7831,[84,776]),(7832,[87,778]),(7833,[89,778]),
  (7834,[65,702]),(8016,[933,787]),(8018,[933,787,768]),(8020,[933,787,769]),(8022,[933,787,834]),
  (8118,[913,834]),(8119,[913,834,921]),(8134,[919,834]),(8135,[919,834,921]),(8146,[921,776,768]),
  (8147,[921,776,769]),(8150,[921,834]),(8151,[921,776,834]),(8162,[933,776,768]),
  (8163,[933,776,769]),(8164,[929,787]),(8166,[933,834]),(8167,[933,776,834]),(8182,[937,834]),
  (8183,[937,834,921]),(64256,[70,70]),(64257,[70,73]),(64258,[70,76]),(64259,[70,70,73]),
  (64260,[70,70,76]),(64261,[83,84]),(64262,[83,84]),(64275,[1348,1350]),(64276,[1348,1333]),
  (64277,[1348,1339]),(64278,[1358,1350]),(64279,[1348,1341])]

/-- The Unicode property `Cased` from code point 128 on. -/
def cased : CodePointSet := .ofGaps #[
  170,1,10,1,4,1,5,23,1,31,1,195,1,4,4,208,2,35,7,2,30,5,96,1,42,4,2,2,2,4,1,1,6,1,1,3,1,1,1,20,1,
  83,1,139,8,166,1,38,9,41,2839,38,1,1,5,1,2,43,1,4,672,86,2,6,2178,11,5,43,2,3,64,192,64,278,2,6,2,
  38,2,6,2,8,1,1,1,1,1,1,1,31,2,53,1,7,1,1,3,3,1,7,3,4,2,6,4,13,5,3,1,7,116,1,13,1,16,13,101,1,4,1,
  2,10,1,1,3,5,6,1,1,1,1,1,1,4,1,6,4,1,2,4,5,5,4,1,17,32,3,2,817,52,1814,229,6,4,3,2,12,38,1,1,5,1,
  30994,46,18,30,132,102,3,4,1,77,20,6,1,3,821,43,1,14,6,80,20288,7,12,5,1033,26,6,26,1189,80,96,36,
  4,36,116,11,1,15,1,7,1,2,1,11,1,15,1,7,1,2,451,1,2,3,1,42,1,9,1221,51,13,51,93,22,10,22,2842,64,
  21856,64,32,25,2,25,25900,85,1,71,1,2,2,1,2,2,2,4,1,12,1,1,1,7,1,65,1,4,2,8,1,7,1,28,1,4,1,5,1,1,
  3,7,1,340,2,25,1,25,1,31,1,25,1,31,1,25,1,31,1,25,1,31,1,25,1,8,1844,10,1,20,6,6,261,62,2194,68,
  2028,26,6,26,6,26]

/-- The Unicode property `Case_Ignorable` from code point 128 on. -/
def caseIgnorable : CodePointSet := .ofGaps #[
  168,1,4,1,1,1,4,1,2,2,503,192,4,2,4,1,9,2,1,1,251,7,207,1,5,1,49,45,1,1,1,2,1,2,1,1,44,1,11,6,10,
  11,1,1,35,1,10,21,16,1,101,8,1,10,1,4,33,1,1,1,30,27,91,11,58,11,4,1,2,1,24,24,43,3,44,1,7,2,5,9,
  41,58,55,1,1,1,4,8,4,1,3,7,10,2,13,1,15,1,58,1,4,4,8,1,20,2,26,1,2,2,57,1,4,2,4,2,2,3,3,1,30,2,3,
  1,11,2,57,1,4,5,1,2,4,1,20,2,22,6,1,1,58,1,2,1,1,4,8,1,7,2,11,2,30,1,61,1,12,1,50,1,3,1,55,1,1,3,
  5,3,1,4,7,2,11,2,29,1,58,1,2,1,6,1,5,2,20,2,28,2,57,2,4,4,8,1,20,2,29,1,72,1,7,3,1,1,90,1,2,7,11,
  9,98,1,2,9,9,1,1,7,73,2,27,1,1,1,1,1,55,14,1,5,1,2,5,11,1,36,9,1,102,4,1,6,1,2,2,2,25,2,4,3,16,4,
  13,1,2,2,6,1,15,1,94,1,608,3,946,3,29,2,30,2,30,2,64,2,1,7,8,1,2,11,3,1,5,1,45,5,51,1,65,2,34,1,
  118,3,4,2,9,1,6,3,219,2,2,1,58,1,1,7,1,1,1,1,2,8,6,10,2,1,39,1,8,46,2,12,20,4,48,1,1,5,1,1,5,1,40,
  9,12,2,32,4,2,2,1,3,56,1,1,2,3,1,1,3,58,8,2,2,64,6,82,3,1,13,1,7,4,1,6,1,3,2,50,63,13,1,34,101,
  445,1,1,3,11,3,13,3,13,3,13,2,12,5,8,2,10,1,2,1,2,5,49,5,1,10,1,1,13,1,16,13,51,33,2955,2,113,3,
  125,1,15,1,96,32,47,1,469,1,36,4,3,5,5,1,93,6,93,3,28438,1,1250,6,270,1,98,4,1,10,1,1,28,4,80,2,
  14,34,78,1,23,3,102,4,3,2,8,1,3,1,4,1,25,2,5,1,151,2,26,18,13,1,38,8,25,11,46,3,48,1,2,4,2,2,17,1,
  21,2,66,6,2,2,2,2,12,1,8,1,35,1,11,1,51,1,1,3,2,2,5,2,1,1,27,1,14,2,5,2,1,1,100,5,9,3,121,1,2,1,4,
  1,20272,1,147,17,573,16,3,1,12,16,34,1,2,1,169,1,7,1,6,1,11,1,35,1,1,1,47,1,45,2,67,1,21,3,513,1,
  226,1,149,5,1029,6,1,42,1,9,582,3,1,2,5,4,40,3,4,1,165,2,573,4,38,1,26,5,1,1,315,2,24,1,52,6,70,
  11,49,4,123,1,54,15,41,1,2,2,10,3,49,4,2,2,2,1,4,1,10,1,50,3,36,5,1,8,62,1,12,2,52,9,10,4,2,1,95,
  3,2,1,1,2,6,1,2,1,157,1,3,8,21,2,57,2,3,1,37,7,3,5,70,6,13,1,1,1,1,1,14,2,85,8,2,3,1,1,23,1,84,6,
  1,1,4,2,1,2,238,4,6,2,1,2,27,2,85,8,2,1,1,2,106,1,1,1,2,6,1,1,101,1,1,1,2,4,1,5,259,9,1,2,256,2,1,
  1,4,1,144,4,2,2,4,1,32,10,40,6,2,4,8,1,9,6,2,3,46,13,1,2,198,1,1,3,1,1,201,7,1,6,1,1,82,22,2,7,1,
  2,1,2,122,6,3,1,1,2,1,7,1,1,72,2,3,1,1,1,65,1,281,2,11,2,52,5,5,1,1,1,23,1,5333,17,6,15,11464,12,
  3,3,2496,5,59,7,9,4,508,3,40,2,482,1,63,17,64,2,1,2,13,2,16380,4,1,7,1,2,3230,2,1,4,4700,46,2,23,
  544,3,9,16,2,7,30,4,148,3,1979,55,4,50,8,1,14,1,22,5,1,15,1360,7,1,17,2,7,1,2,1,5,5,62,33,1,160,
  14,368,1,61,4,507,5,254,2,243,1,2,1,7,2,5,1,9,1,464,7,109,8,2735,5,789505,1,30,96,128,240]

def isCased (c : Char) : Bool :=
  if c.toNat < 128 then c.isAlpha else cased.contains c

def isCaseIgnorable (c : Char) : Bool :=
  if c.toNat < 128 then [39, 46, 58, 94, 96].contains c.toNat
  else caseIgnorable.contains c

/-- The image of a code point in the first run that has one. -/
def imageIn (runs : List CaseRun) (n : Nat) : Option Nat :=
  runs.findSome? (·.image? n)

def upperChar (c : Char) : List Char :=
  let n := c.toNat
  if n < 128 then [c.toUpper]
  else
    match upperExpansions.lookup n, imageIn iotaRuns n with
    | some cs, _ => cs.map Char.ofNat
    | none, some capital => [Char.ofNat capital, Char.ofNat 921]
    | none, none => [(imageIn (upperRuns ++ smallLetters) n).elim c Char.ofNat]

def lowerChar (c : Char) : List Char :=
  let n := c.toNat
  if n < 128 then [c.toLower]
  else if n = 304 then ['i', Char.ofNat 775]
  else [(imageIn (lowerRuns ++ capitalLetters) n).elim c Char.ofNat]

def upper (cs : List Char) : List Char :=
  cs.flatMap upperChar

/-- Whether, after skipping case-ignorable characters, a cased one comes next. -/
def meetsCased (cs : List Char) : Bool :=
  match cs.dropWhile isCaseIgnorable with
  | [] => false
  | c :: _ => isCased c

/-- Small forms, where `before` is the text already passed in reverse. A capital sigma that ends a
word becomes the final form. -/
def lowerFrom (before : List Char) : List Char → List Char
  | [] => []
  | c :: rest =>
    let small :=
      if c = 'Σ' then (if meetsCased before && !meetsCased rest then ['ς'] else ['σ'])
        else lowerChar c
    small ++ lowerFrom (c :: before) rest

def lower (cs : List Char) : List Char :=
  lowerFrom [] cs

end Text
end Refscript
