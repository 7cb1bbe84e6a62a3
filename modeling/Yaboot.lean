import Yaboot.Cfg.DefaultProofs
import Yaboot.Cfg.PaddingProofs
import Yaboot.Cfg.ScopeProofs
import Yaboot.Cfg.TokenProofs
import Yaboot.Cfg.WrittenProofs
import Yaboot.Elf.HeaderProofs
import Yaboot.Elf.LinkedProofs
import Yaboot.Elf.Ramdisk
import Yaboot.Ext2.Device
import Yaboot.Ext2.ReadProofs
import Yaboot.Fs.EndOfFileProofs
import Yaboot.Fs.HandleProofs
import Yaboot.Fs.OfPath
import Yaboot.Fs.ProbeProofs
import Yaboot.Fs.SwapProofs
import Yaboot.Lib.CompareProofs
import Yaboot.Lib.FindProofs
import Yaboot.Lib.MemmoveProofs
import Yaboot.Lib.MemsetProofs
import Yaboot.Lib.NumberProofs
import Yaboot.Lib.Realloc
import Yaboot.Lib.StrstrProofs
import Yaboot.Md5.PasswordProofs
import Yaboot.Netboot.Bootp
import Yaboot.Netboot.ConfigProofs
import Yaboot.Netboot.OpenPathProofs
import Yaboot.Partition.AmigaListProofs
import Yaboot.Partition.LookupProofs
import Yaboot.Partition.MacProofs
import Yaboot.Prompt.AskProofs
import Yaboot.Prompt.ConfCopiesProofs
import Yaboot.Prompt.HandedProofs
import Yaboot.Prompt.MakeParams
import Yaboot.Prompt.ManualInitrd
import Yaboot.Prompt.Message
import Yaboot.Reiserfs.CacheProofs
import Yaboot.Reiserfs.HoleProofs
import Yaboot.Reiserfs.JournalTableProofs
import Yaboot.Reiserfs.SearchProofs
import Yaboot.Reiserfs.SuperProofs
import Yaboot.Util.AddnoteIndices
import Yaboot.Xfs.DataDirProofs
import Yaboot.Xfs.DirProofs
import Yaboot.Xfs.Inodes
