import CycleCheck.Fault

/-!
The memory map: sixteen pages of four kilobytes. RAM of two kilobytes fills the first two pages by
mirrors, the cartridge has the upper half, and nothing answers between them.
-/

namespace CycleCheck.Memory

inductive Area where
  | undefined
  | ram
  | null
  | cartridge
deriving DecidableEq

namespace Area

def text : Area → String
  | .undefined => "undefined"
  | .ram => "RAM"
  | .null => "Null"
  | .cartridge => "Cartridge"

/-- The area with a number; a number without an area is none of the areas that have pages. -/
def ofInt? : Int → Option Area
  | 0 => some .undefined
  | 1 => some .ram
  | 2 => some .null
  | 3 => some .cartridge
  | _ => none

end Area

def pageCount : Nat := 16
def pageBits : Nat := 12
def ramSize : Nat := 0x800
def ramBits : Nat := 11
def originNull : Nat := 0x2000
def originCartridge : Nat := 0x8000

/-- The last address. -/
def memtop : Nat := 0xffff

/-- The page of an address. -/
def pageOf (address : UInt16) : Nat := address.toNat >>> pageBits

def areaOfPage (page : Int) : Area :=
  if page < 0 || page ≥ pageCount then .undefined
  else if page < 2 then .ram
  else if page < 8 then .null
  else .cartridge

inductive MapError where
  | noSuchPage (page : Int)

def MapError.fault : MapError → Fault
  | .noSuchPage page => .patterned "memorymap: no such page (%d)" [.int page]

/-- The first address of a page. -/
def pageOrigin (page : Int) : Except MapError Nat :=
  if page < 0 || page ≥ pageCount then .error (.noSuchPage page)
  else .ok (page.toNat <<< pageBits)

def areaOf (address : UInt16) : Area := areaOfPage (pageOf address)

/-- The address with mirrors of RAM undone, and its area. -/
def mapAddress (address : UInt16) : UInt16 × Area :=
  match areaOf address with
  | .ram => (address &&& 0x7ff, .ram)
  | area => (address, area)

/-- One line of the summary: the first and last address of an area, and its name. -/
def summaryLine (first last : Nat) (area : Area) : String :=
  Text.hexPadded 4 (first <<< pageBits) ++ " -> " ++ Text.hexPadded 4 ((last <<< pageBits) - 1) ++
    "\t" ++ area.text ++ "\n"

/-- Groups pages from `page` on: an area goes on as long as the next page belongs to it. -/
def summaryFrom (start : Nat) (current : Area) : Nat → Nat → String
  | _, 0 => ""
  | page, n + 1 =>
      if page < pageCount then
        let area := areaOfPage page
        if area = current then summaryFrom start current (page + 1) n
        else summaryLine start page current ++ summaryFrom page area (page + 1) n
      else summaryLine start page current

/-- The areas in order, one a line. -/
def summary : String := summaryFrom 0 (areaOfPage 0) 1 pageCount

end CycleCheck.Memory
