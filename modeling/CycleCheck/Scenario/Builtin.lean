import CycleCheck.Scenario.Basic

/-!
The scenarios that come with the program: loads and stores in every addressing mode, the flags, and
programs in the cartridge.
-/

namespace CycleCheck.Scenario

def bytesAt (xs : List (UInt16 × UInt8)) : Option ByteMap := some (.ofList xs)

def builtin : List Scenario := [
  { name := "LDA immediate"
    program := [0xa9, 0x5a]
    cycles := 2
    expect := { a := some 0x5a, pc := some 0x0003, p := "s.-...z." } },
  { name := "LDA immediate zero flag"
    program := [0xa9, 0x00]
    cycles := 2
    expect := { a := some 0x00, p := "s.-...Z." } },
  { name := "LDX immediate sign flag"
    program := [0xa2, 0x80]
    cycles := 2
    expect := { x := some 0x80, p := "S.-...z." } },
  { name := "LDY immediate"
    program := [0xa0, 0x33]
    cycles := 2
    expect := { y := some 0x33, pc := some 0x0003 } },
  { name := "LDA zero page"
    program := [0xa5, 0x10]
    ram := bytesAt [(0x0010, 0x80)]
    cycles := 3
    expect := { a := some 0x80, pc := some 0x0003, p := "S.-...z." } },
  { name := "LDA zero page,X wraps"
    description := "the effective address of zero page indexing never leaves the zero page"
    program := [0xa2, 0xff, 0xb5, 0x10]
    ram := bytesAt [(0x000f, 0x42), (0x010f, 0x13)]
    cycles := 6
    expect := { a := some 0x42, pc := some 0x0005 } },
  { name := "LDX zero page,Y"
    program := [0xa0, 0x02, 0xb6, 0x20]
    ram := bytesAt [(0x0022, 0x5e)]
    cycles := 6
    expect := { x := some 0x5e } },
  { name := "LDA absolute"
    program := [0xad, 0x34, 0x02]
    ram := bytesAt [(0x0234, 0x21)]
    cycles := 4
    expect := { a := some 0x21, pc := some 0x0004 } },
  { name := "LDA absolute mirrored"
    program := [0xad, 0x34, 0x1a]
    ram := bytesAt [(0x0234, 0x2f)]
    cycles := 4
    expect := { a := some 0x2f } },
  { name := "LDA absolute,X"
    program := [0xa2, 0x02, 0xbd, 0x10, 0x00]
    ram := bytesAt [(0x0012, 0x77)]
    cycles := 6
    expect := { a := some 0x77, pc := some 0x0006 } },
  { name := "LDA absolute,X page crossing"
    program := [0xa2, 0x10, 0xbd, 0xf8, 0x00]
    ram := bytesAt [(0x0108, 0x99)]
    cycles := 7
    expect := { a := some 0x99, pc := some 0x0006 } },
  { name := "LDA absolute,X page crossing is incomplete"
    description := "the load is not complete until the extra cycle has run"
    program := [0xa2, 0x10, 0xbd, 0xf8, 0x00]
    ram := bytesAt [(0x0108, 0x99)]
    cycles := 6
    expect := { a := some 0x00 } },
  { name := "LDY absolute,X page crossing"
    program := [0xa2, 0x01, 0xbc, 0xff, 0x01]
    ram := bytesAt [(0x0200, 0x0c)]
    cycles := 7
    expect := { y := some 0x0c } },
  { name := "LDA absolute,Y"
    program := [0xa0, 0x03, 0xb9, 0x00, 0x03]
    ram := bytesAt [(0x0303, 0xe0)]
    cycles := 6
    expect := { a := some 0xe0, p := "S.-...z." } },
  { name := "LDA (indirect,X)"
    program := [0xa2, 0x04, 0xa1, 0x20]
    ram := bytesAt [(0x0024, 0x00), (0x0025, 0x03), (0x0300, 0x5c)]
    cycles := 8
    expect := { a := some 0x5c, pc := some 0x0005 } },
  { name := "LDA (indirect,X) pointer wraps"
    description := "the pointer is read from the zero page. here it is the first two bytes of the program"
    program := [0xa2, 0x01, 0xa1, 0xff]
    ram := bytesAt [(0x01a2, 0x4d)]
    cycles := 8
    expect := { a := some 0x4d } },
  { name := "LDA (indirect),Y"
    program := [0xa0, 0x10, 0xb1, 0x40]
    ram := bytesAt [(0x0040, 0x00), (0x0041, 0x02), (0x0210, 0x6d)]
    cycles := 7
    expect := { a := some 0x6d, pc := some 0x0005 } },
  { name := "LDA (indirect),Y page crossing"
    program := [0xa0, 0x10, 0xb1, 0x40]
    ram := bytesAt [(0x0040, 0xf8), (0x0041, 0x02), (0x0308, 0x6e)]
    cycles := 8
    expect := { a := some 0x6e } },
  { name := "STA zero page"
    program := [0xa9, 0x3c, 0x85, 0x80]
    cycles := 5
    expect := { pc := some 0x0005, ram := bytesAt [(0x0080, 0x3c)] } },
  { name := "STA absolute mirrored"
    program := [0xa9, 0x3c, 0x8d, 0x40, 0x08]
    cycles := 6
    expect := { ram := bytesAt [(0x0040, 0x3c)] } },
  { name := "STA absolute,X"
    program := [0xa2, 0x05, 0xa9, 0x11, 0x9d, 0x00, 0x03]
    cycles := 9
    expect := { pc := some 0x0008, ram := bytesAt [(0x0305, 0x11)] } },
  { name := "STA absolute,Y page crossing"
    program := [0xa0, 0x20, 0xa9, 0x22, 0x99, 0xf0, 0x03]
    cycles := 9
    expect := { ram := bytesAt [(0x0410, 0x22)] } },
  { name := "STA (indirect),Y"
    program := [0xa0, 0x01, 0xa9, 0x99, 0x91, 0x50]
    ram := bytesAt [(0x0050, 0x00), (0x0051, 0x04)]
    cycles := 10
    expect := { ram := bytesAt [(0x0401, 0x99)] } },
  { name := "STA (indirect,X)"
    program := [0xa2, 0x02, 0xa9, 0x44, 0x81, 0x60]
    ram := bytesAt [(0x0062, 0x00), (0x0063, 0x05)]
    cycles := 10
    expect := { ram := bytesAt [(0x0500, 0x44)] } },
  { name := "STX zero page"
    program := [0xa2, 0xab, 0x86, 0x70]
    cycles := 5
    expect := { ram := bytesAt [(0x0070, 0xab)] } },
  { name := "STX zero page,Y"
    program := [0xa2, 0x77, 0xa0, 0x01, 0x96, 0x30]
    cycles := 8
    expect := { ram := bytesAt [(0x0031, 0x77)] } },
  { name := "STX absolute"
    program := [0xa2, 0x12, 0x8e, 0x00, 0x06]
    cycles := 6
    expect := { ram := bytesAt [(0x0600, 0x12)] } },
  { name := "STY zero page,X"
    program := [0xa2, 0x03, 0xa0, 0xcd, 0x94, 0x70]
    cycles := 8
    expect := { ram := bytesAt [(0x0073, 0xcd)] } },
  { name := "STY absolute"
    program := [0xa0, 0x99, 0x8c, 0x00, 0x02]
    cycles := 6
    expect := { ram := bytesAt [(0x0200, 0x99)] } },
  { name := "load after store"
    program := [0xa9, 0x5a, 0x85, 0x10, 0xa6, 0x10]
    cycles := 8
    expect := { x := some 0x5a, ram := bytesAt [(0x0010, 0x5a)] } },
  { name := "SEC SED CLC CLI"
    program := [0x38, 0xf8, 0x18, 0x58]
    cycles := 8
    expect := { pc := some 0x0005, p := "..-.Di.c" } },
  { name := "SED CLD CLV SEI"
    program := [0xf8, 0xd8, 0xb8, 0x78]
    cycles := 8
    expect := { p := ".v-.dI.." } },
  { name := "NOP"
    program := [0xea, 0xa9, 0x07]
    cycles := 4
    expect := { a := some 0x07, pc := some 0x0004 } },
  { name := "program in cartridge"
    description := "the program and its data are in the cartridge area"
    origin := 0x8000
    program := [0xa9, 0x01, 0xad, 0x00, 0x90]
    prg := bytesAt [(0x9000, 0xab)]
    cycles := 6
    expect := { a := some 0xab, pc := some 0x8006, p := "S.-...z." } },
  { name := "null area reads zero"
    program := [0xa9, 0x01, 0xad, 0x00, 0x30]
    cycles := 6
    expect := { a := some 0x00, p := "s.-...Z." } }]

end CycleCheck.Scenario
