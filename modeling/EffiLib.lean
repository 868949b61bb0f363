import EffiLib.IntelHex.Loading
import EffiLib.IntelHex.AcceptedLines
import EffiLib.IntelHex.Conservation
import EffiLib.IntelHex.Sections
import EffiLib.IntelHex.LocalArray
import EffiLib.IntelHex.LastLine
import EffiLib.IntelHex.EndOfFile
import EffiLib.IntelHex.Merge
import EffiLib.IntelHex.RoundTrip
import EffiLib.IntelHex.HexToBin
import EffiLib.IntelHex.HexRoundTrip
import EffiLib.Dwiap.Transfers
import EffiLib.Des.Refinement
import EffiLib.Des.Complementation
import EffiLib.Des.SubKeys
import EffiLib.Coroutines.SlotTable
import EffiLib.Coroutines.Closing
import EffiLib.Exec.Capture
import EffiLib.FatFs.VirtualDisk
import EffiLib.Permutations.ArrayPermutations
import EffiLib.EncodeConvert.LuaText
import EffiLib.FatFs.Window
import EffiLib.FatFs.FatEntries
import EffiLib.FatFs.Allocator
import EffiLib.FatFs.Sync
import EffiLib.FatFs.FileStore
import EffiLib.FatFs.NamedEntries
import EffiLib.Base64.Streams
