import LxToolset.Machine
import LxToolset.Pipeline
import LxToolset.Recorder
import LxToolset.RecorderOwnership
import LxToolset.RecorderShutdown
import LxToolset.RecorderInput
import LxToolset.RecorderBytes
import LxToolset.RecorderHeader
import LxToolset.RecorderFinish
import LxToolset.Keyboard
import LxToolset.KeyboardTest
import LxToolset.KeyboardCount
import LxToolset.KeyboardRounds
import LxToolset.KeyboardDecode
import LxToolset.KeyboardPass
import LxToolset.KeyboardAccesses
import LxToolset.KeyboardScreen
import LxToolset.Memory
import LxToolset.ShowBitmap
import LxToolset.ShowBitmapReads
import LxToolset.ShowBitmapStores
import LxToolset.ShowBitmapColours
import LxToolset.ShowBitmapPicture
import LxToolset.ShowBitmapRows
import LxToolset.Ledger
import LxToolset.ShowBitmapOwnership
import LxToolset.Framebuffer
import LxToolset.FramebufferRuns
import LxToolset.FbTest
import LxToolset.Bits
import LxToolset.Eeprom
import LxToolset.EepromChip
import LxToolset.EepromMemory
import LxToolset.EepromTrace
import LxToolset.EepromBusy
import LxToolset.EepromBytes
import LxToolset.EepromMain
import LxToolset.EepromMac
import LxToolset.Frame
import LxToolset.CText
import LxToolset.SisRegs
import LxToolset.SisRows
import LxToolset.SisFrame
import LxToolset.SpiInfo
import LxToolset.SpiInfoFlash
import LxToolset.SpiInfoFailures
import LxToolset.SerialParity
import LxToolset.ComTest
import LxToolset.Videoram
import LxToolset.StraightLine
import LxToolset.Touchpad
import LxToolset.NasTool
import LxToolset.NasWait
import LxToolset.NasBlink
import LxToolset.SisWrite
import LxToolset.SisAccessors
import LxToolset.SisReadCommand
import LxToolset.SisPokes
import LxToolset.SisWriteCommand
import LxToolset.SisBounds
import LxToolset.SisParse
import LxToolset.SisDebug
import LxToolset.SendPkt
import LxToolset.I2cRead
import LxToolset.Dgemm
import LxToolset.DgemmTile
import LxToolset.DgemmProduct
import LxToolset.Borders
import LxToolset.Bgrep
import LxToolset.FaultyRam
import LxToolset.Memtester
import LxToolset.MemtesterBuffer
import LxToolset.Blocks
import LxToolset.Md5
import LxToolset.Md5stream
import LxToolset.Flips
import LxToolset.UrumtStats
import LxToolset.Urumt
import LxToolset.UrumtPages
import LxToolset.Sightings
import LxToolset.RumtTrymem
import LxToolset.RumtFusion
import LxToolset.RumtLines
import LxToolset.RumtDaemon
import LxToolset.Intervals
import LxToolset.PrintHoles
import LxToolset.RumtAreas
import LxToolset.Highmem
