import Enc28j60Udp.Comm.Periodic
import Enc28j60Udp.Dht11.Sensor
import Enc28j60Udp.Enc28j60.Ethernetif
import Enc28j60Udp.Enc28j60.Isr
import Enc28j60Udp.Enc28j60.Mask
import Enc28j60Udp.Enc28j60.Receive
import Enc28j60Udp.Enc28j60.Transmit
import Enc28j60Udp.Lwip.Integrity
import Enc28j60Udp.Lwip.MemRuns
import Enc28j60Udp.Lwip.Resolution
import Enc28j60Udp.Malloc.Overread
import Enc28j60Udp.Udp.Motors
import Enc28j60Udp.Udp.Readings
import Enc28j60Udp.Udp.Release
import Enc28j60Udp.Usart.Restart
import Enc28j60Udp.Usmart.Commands
import Enc28j60Udp.Usmart.Console
import Enc28j60Udp.Usmart.Prototype
