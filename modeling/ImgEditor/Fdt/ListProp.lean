import ImgEditor.Fdt.DeviceTree
import ImgEditor.Core.CToken
import ImgEditor.Core.StructureTable

namespace ImgEditor

open Storage CText

/-! Each printer yields the text it prints, or `none` for a return value of -1. -/

/-- isprint(3) of a `char` in the C locale. -/
def isprint (c : Byte) : Bool := 32 ≤ c.toNat ∧ c.toNat ≤ 126

/-- The check loop of `fdt_prop_print_multi_strings` from some byte on. -/
def fdtMultiStringsCheck : List Byte → Bool
  | [] => true
  | [c] => c = 0 ∨ isprint c
  | c :: next :: rest => (if c = 0 then next ≠ 0 else isprint c) && fdtMultiStringsCheck (next :: rest)

def fdtMultiStringsText : List Byte → CString
  | [] => []
  | [c] => if c = 0 then cstr "\";" else [c]
  | c :: next :: rest => (if c = 0 then cstr "\", \"" else [c]) ++ fdtMultiStringsText (next :: rest)

def fdtPropPrintMultiStrings (ms : List Byte) : Option CString :=
  if ms.headD 0 = 0 ∨ ms.getLastD 0 ≠ 0 then none
  else if fdtMultiStringsCheck ms then some (cstr " = \"" ++ fdtMultiStringsText ms)
  else none

/-- `fdt_prop_print_simple_value`; the flag is `fdtprop_feature_incbin`. -/
def fdtPropPrintSimpleValue (incbin : Bool) (data : List Byte) : Option CString :=
  if data = [] then some (cstr ";")
  else if incbin ∧ data.take 8 = cstr "/incbin/" ∧ data.getLastD 0 = 0 then
    some (cstr " = " ++ data.takeWhile (· ≠ 0) ++ cstr ";")
  else fdtPropPrintMultiStrings data

/-- The cells of a value; an incomplete one at the end is not looked at. -/
def fdtCells : List Byte → List (BitVec 32)
  | a :: b :: c :: d :: rest => be32 [a, b, c, d] 0 :: fdtCells rest
  | _ => []

def fdtPropNumberArrayDetectBase (arrays : List (BitVec 32)) : Nat :=
  let base10 := (arrays.filter fun n => n.toNat ≤ 10 ∨ n.toNat % 10 = 0).length
  let base16 := arrays.length - base10
  if base10 < base16 then 16 else 10

def printInt (n : BitVec 32) : CString :=
  if n.toNat < 2^31 then decimal n.toNat else 45 :: decimal (2^32 - n.toNat)

def fdtHexWidth (n : Nat) : Nat :=
  if 0xffffff < n then 8 else if 0xffff < n then 6 else if 0xfff < n then 4 else if 0xff < n then 3
  else if 0xf < n then 2 else 1

def fdtPropPrintNumberAutobase (n : BitVec 32) (base : Nat) : CString :=
  if base = 10 ∨ (base ≠ 16 ∧ (n.toNat ≤ 10 ∨ n.toNat % 10 = 0)) then printInt n
  else cstr "0x" ++ hexFixed (fdtHexWidth n.toNat) n.toNat

/-- The note on a value of which only the first 32 items are printed. -/
def fdtStripedText (sz : Nat) : CString := cstr "... (total = " ++ decimal sz ++ cstr ")"

def fdtPropPrintSimpleNumber (data : List Byte) : CString :=
  let sz := data.length
  if sz % 4 = 0 then
    let shown := (fdtCells data).take 32
    let base := fdtPropNumberArrayDetectBase shown
    cstr " = <" ++ spaced (shown.map fun n => fdtPropPrintNumberAutobase n base) ++
      (if 32 < sz / 4 then fdtStripedText sz else []) ++ cstr ">;"
  else
    let items := (data.take 32).map fun b => cstr "0x" ++ hexFixed 2 b.toNat
    cstr " = [" ++ spaced items ++
      (if 32 < sz then cstr " " ++ fdtStripedText sz else []) ++ cstr "];"

def fdtU32PropLists : List CString :=
  ["#address-cells", "#clock-cells", "#cooling-cells", "#dma-cells", "#gpio-cells", "#interrupt-cells", "#phy-cells",
    "#pwm-cells", "#reset-cells", "#size-cells"].map cstr

def fdtPropPrintU32Number (propname : CString) (data : List Byte) : Option CString :=
  if data.length ≠ 4 ∨ propname ∉ fdtU32PropLists then none
  else some (cstr " = <" ++ printInt (be32 data 0) ++ cstr ">;")

def fdtPropPrintReg (propname : CString) (data : List Byte) : Option CString :=
  if propname ≠ cstr "reg" ∨ data.length % 4 ≠ 0 then none
  else some (cstr " = <" ++
    spaced ((fdtCells data).map fun n => fdtPropPrintNumberAutobase n (if n.toNat ≤ 10 then 10 else 16)) ++
    cstr ">;")

/-- The node behind a phandle, for the name of its cell count or a fixed count and the bytes that follow: its label and
the number of cells, or `none` for any of the errors. -/
abbrev FdtTargets := Option CString → Nat → BitVec 32 → List Byte → Option (CString × Nat)

def fdtPhandleCells (cells : List (BitVec 32)) : CString :=
  cells.flatMap fun n => if n = 0xffffffff then cstr " (~0)" else cstr " " ++ decimal n.toNat

/-- The loop of `_fdt_prop_print_phandles`; its first pass only finds out whether the second comes to the end. -/
def fdtPhandlesText (targets : FdtTargets) (cellName : Option CString) (fixCellSize : Nat) :
    Nat → List Byte → Option CString
  | 0, _ => some []
  | fuel + 1, data =>
    if data.length < 4 then some []
    else
      let phandle := be32 data 0
      let rest := data.drop 4
      let separator (rest : List Byte) := if 0 < rest.length then cstr ", " else []
      if phandle = 0 then
        (fdtPhandlesText targets cellName fixCellSize fuel rest).map (cstr "<0>" ++ separator rest ++ ·)
      else
        match targets cellName fixCellSize phandle rest with
        | none => none
        | some (label, cellSize) =>
          if rest.length < cellSize * 4 then none
          else
            let after := rest.drop (cellSize * 4)
            (fdtPhandlesText targets cellName fixCellSize fuel after).map
              (cstr "<&" ++ label ++ fdtPhandleCells ((fdtCells rest).take cellSize) ++ cstr ">" ++ separator after ++ ·)

def fdtPropPrintPhandles (targets : FdtTargets) (cellName : Option CString) (fixCellSize : Nat) (data : List Byte) :
    Option CString :=
  if data.length < 4 then none
  else (fdtPhandlesText targets cellName fixCellSize data.length data).map fun text => cstr " = " ++ text ++ cstr ";"

def stringEndingIn (s ending : CString) : Bool := ending.length < s.length ∧ ending <:+ s

def fdtPropPrintGpios (targets : FdtTargets) (propname : CString) (data : List Byte) : Option CString :=
  if propname = cstr "gpio" ∨ propname = cstr "gpios" ∨ stringEndingIn propname (cstr "-gpio") ∨
      stringEndingIn propname (cstr "-gpios") then
    fdtPropPrintPhandles targets (some (cstr "#gpio-cells")) 0 data
  else none

def fdtPropPrintPinctrl (targets : FdtTargets) (propname : CString) (data : List Byte) : Option CString :=
  if propname.take 8 = cstr "pinctrl-" ∧ (strtoull 10 (propname.drop 8)).2 = [] then
    fdtPropPrintPhandles targets none 0 data
  else none

def fdtPropPrintSupply (targets : FdtTargets) (propname : CString) (data : List Byte) : Option CString :=
  if stringEndingIn propname (cstr "-supply") then fdtPropPrintPhandles targets none 0 data else none

def fdtPropPrintPhandleWithCells (targets : FdtTargets) (propname : CString) (data : List Byte) : Option CString :=
  [("clocks", "#clock-cells"), ("dmas", "#dma-cells"), ("resets", "#reset-cells"), ("phys", "#phy-cells"),
    ("pwms", "#pwm-cells"), ("thermal-sensors", "#thermal-sensor-cells"), ("cooling-device", "#cooling-cells"),
    ("interconnects", "#interconnect-cells"), ("power-domains", "#power-domain-cells")].findSome? fun (name, cellName) =>
      if propname = cstr name then fdtPropPrintPhandles targets (some (cstr cellName)) 0 data else none

def fdtPropPrintPhandleFixCells (targets : FdtTargets) (propname : CString) (data : List Byte) : Option CString :=
  if propname = cstr "allwinner,sram" then fdtPropPrintPhandles targets none 1 data else none

def fdtPropPrintPhandleNocells (targets : FdtTargets) (propname : CString) (data : List Byte) : Option CString :=
  if propname ∈ ["phy", "allwinner,pipelines", "interrupt-parent", "trip", "remote-endpoint", "interrupt-affinity",
      "operating-points-v2", "syscon", "cpu-idle-states"].map cstr then
    fdtPropPrintPhandles targets none 0 data
  else none

/-- The flags and the tree that the printers look at. -/
structure FdtListing where
  keepPhandle : Bool
  incbin : Bool
  verboseLevel : Nat
  targets : FdtTargets

/-- The phandle printers, which a verbose listing leaves out. -/
def fdtPropPrintLabels (fdt : FdtListing) (propname : CString) (data : List Byte) : Option CString :=
  if fdt.verboseLevel = 0 then
    (fdtPropPrintPhandleNocells fdt.targets propname data).or <| (fdtPropPrintGpios fdt.targets propname data).or <|
      (fdtPropPrintPinctrl fdt.targets propname data).or <| (fdtPropPrintSupply fdt.targets propname data).or <|
      (fdtPropPrintPhandleWithCells fdt.targets propname data).or <| fdtPropPrintPhandleFixCells fdt.targets propname data
  else none

def fdtPropText (fdt : FdtListing) (propname : CString) (data : List Byte) : CString :=
  ((fdtPropPrintSimpleValue fdt.incbin data).or <| (fdtPropPrintU32Number propname data).or <|
    (fdtPropPrintReg propname data).or <| fdtPropPrintLabels fdt propname data).getD (fdtPropPrintSimpleNumber data)

def fdtListNodeProp (fdt : FdtListing) (propname : CString) (data : List Byte) (depth : Nat) : CString :=
  if propname = cstr "phandle" ∧ fdt.keepPhandle = false then []
  else List.replicate (depth * 4) 32 ++ propname ++ fdtPropText fdt propname data ++ [10]

end ImgEditor
